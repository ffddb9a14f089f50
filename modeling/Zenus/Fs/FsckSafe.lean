import Zenus.Fs.Fsck

/-! # When the checker survives

Most of the arithmetic of `fsck` stays in range for every superblock.  What can fault is
the shift that gives the block size, the division by a block size that was shifted out,
the products of block numbers with the block size, and the difference of a group's size
and its counter of free blocks.
-/

namespace Zenus.Fs

open Lib.Image Lib.Word Lib.Checked Option Fs.Geometry Nat List

/-- The descriptor of a group, where its sector can be read. -/
def descriptor (disk : RawDisk) (geo : Geometry) (g : Nat) : Option Img :=
  (disk (geo.bgdtStart * geo.blockSize / SECTOR + g * DESCRIPTOR_BYTES / SECTOR)).map fun buf =>
    view buf (g * DESCRIPTOR_BYTES % SECTOR)

/-- What the sizes of the fields say about a geometry. -/
structure Geometry.Bounded (geo : Geometry) : Prop where
  blockSize : geo.blockSize < WORD
  numGroups_pos : 0 < geo.numGroups
  numGroups : geo.numGroups ≤ 2 ^ 32
  inodesPerGroup : geo.inodesPerGroup < 2 ^ 32
  lastGroupInodes : geo.lastGroupInodes < 2 ^ 32
  inodeSize : geo.inodeSize < 2 ^ 16

def BitmapReadable (disk : RawDisk) (geo : Geometry) (bgd : Img) : Prop :=
  ∀ i < (geo.blockSize + SECTOR - 1) / SECTOR,
    (disk (Ext2Fs.blockBitmap bgd * geo.blockSize / SECTOR + i)).isSome

/-- The bitmap of a group can be checked: its first byte has an address, and if it is
    compared with the counter of free blocks, then there are not more free blocks than
    blocks. -/
def BitmapSane (disk : RawDisk) (geo : Geometry) (g : Nat) (bgd : Img) : Prop :=
  Ext2Fs.blockBitmap bgd * geo.blockSize < WORD ∧
    (geo.blockSize ≤ BITMAP_BUF → BitmapReadable disk geo bgd →
      Ext2Fs.freeBlocksCount bgd ≤ geo.groupBlocks (g = geo.numGroups - 1))

/-- A group whose descriptor can be read can be checked. -/
def GroupSane (disk : RawDisk) (geo : Geometry) (g : Nat) : Prop :=
  ∀ bgd ∈ descriptor disk geo g, geo.blockSize ≠ 0 ∧ BitmapSane disk geo g bgd

def rootGroup (geo : Geometry) : Nat := 1 / geo.inodesPerGroup

/-- The table of the group of the root inode has an address. -/
def RootSane (disk : RawDisk) (geo : Geometry) : Prop :=
  ∀ bgd ∈ descriptor disk geo (rootGroup geo), Ext2Fs.inodeTable bgd * geo.blockSize < WORD

variable {disk : RawDisk} {geo : Geometry} {g first blocks b offset size needed : Nat} {bgd : Img}
  {report : FsckReport}

section Reading

theorem readBgd_ok (bounded : geo.Bounded) (small : g < 2 ^ 32) :
    readBgd disk geo g = .ok (descriptor disk geo g) := by
  have size := bounded.blockSize
  rw [WORD_eq] at size
  have start : geo.bgdtStart * geo.blockSize < WORD := by
    rw [bgdtStart, WORD_eq]
    split <;> omega
  have offset : g * DESCRIPTOR_BYTES < WORD := by
    rw [DESCRIPTOR_BYTES, WORD_eq]
    omega
  have sector : geo.bgdtStart * geo.blockSize / SECTOR + g * DESCRIPTOR_BYTES / SECTOR < WORD := by
    rw [WORD_eq] at start ⊢
    rw [SECTOR, DESCRIPTOR_BYTES]
    omega
  rw [readBgd, cmul, check_ok offset, ok_bind, cmul, check_ok start, ok_bind, cadd, check_ok sector, ok_bind]
  rfl

/-- The offsets and the sector of round `i` of a loop over at most eight sectors. -/
theorem sector_steps {i n size : Nat} (inside : i < n) (few : n ≤ 8) (low : first + n < WORD)
    (whole : n * SECTOR = size) : i * SECTOR < WORD ∧ i * SECTOR + SECTOR < WORD ∧ first + i < WORD ∧
      i * SECTOR ≤ i * SECTOR + SECTOR ∧ i * SECTOR + SECTOR ≤ size := by
  rw [SECTOR, WORD_eq] at *
  omega

theorem readBitmap_ok (disk : RawDisk) (low : first + 8 < WORD) (rounds i : Nat)
    (fits : i + rounds ≤ 8) (buf : Img) :
    ∃ result, readBitmap disk first rounds i buf = .ok result ∧
      (result.isSome ↔ ∀ k, i ≤ k → k < i + rounds → (disk (first + k)).isSome) := by
  induction rounds generalizing i buf with
  | zero => exact ⟨some buf, rfl, fun _ k above below => absurd below (by omega), fun _ => rfl⟩
  | succ rounds ih =>
    obtain ⟨off, stop, sector, slice⟩ := sector_steps (show i < 8 by omega) le_rfl low (show 8 * SECTOR = BITMAP_BUF from rfl)
    rw [readBitmap, cmul, check_ok off, ok_bind, cadd, check_ok stop, ok_bind, if_neg (not_lt.mpr slice.2), cadd,
      check_ok sector, ok_bind, cslice, check_ok slice, ok_bind]
    cases here : disk (first + i) with
    | none =>
      refine ⟨none, rfl, fun wrong => absurd wrong (by simp), fun all => ?_⟩
      have wrong := all i (le_refl i) (by omega)
      rw [here] at wrong
      exact wrong
    | some bytes =>
      obtain ⟨result, done, readable⟩ := ih (i + 1) (by omega) (patch buf (i * SECTOR) SECTOR bytes)
      refine ⟨result, done, readable.trans ⟨fun later k above below => ?_, fun all k above below => ?_⟩⟩
      · by_cases first : k = i
        · subst first
          rw [here]
          rfl
        · exact later k (by omega) (by omega)
      · exact all k (by omega) (by omega)

theorem countBits_safe (buf : Img) (items : List Nat) (setBits : Nat) (inside : ∀ i ∈ items, i / 8 < BITMAP_BUF)
    (few : setBits + items.length < WORD) : Safe (items.foldlM (countBit buf) setBits) := by
  induction items generalizing setBits with
  | nil => exact safe_ok setBits
  | cons i rest ih =>
    have later : ∀ j ∈ rest, j / 8 < BITMAP_BUF := fun j listed => inside j (mem_cons_of_mem i listed)
    rw [length_cons] at few
    rw [foldlM_cons, countBit, cindex, check_ok (inside i (mem_cons_self ..)), ok_bind]
    split
    · rw [cadd, check_ok (by omega), ok_bind]
      exact ih (setBits + 1) later (by omega)
    · exact ih setBits later (by omega)

theorem readInodeSectors_ok (disk : RawDisk) (low : first + 2 < WORD) (rounds i : Nat) (fits : i + rounds ≤ 2)
    (buf : Img) : ∃ result, readInodeSectors disk first rounds i buf = .ok result := by
  induction rounds generalizing i buf with
  | zero => exact ⟨some buf, rfl⟩
  | succ rounds ih =>
    obtain ⟨base, stop, sector, slice⟩ := sector_steps (show i < 2 by omega) (by decide) low (show 2 * SECTOR = INODE_BUF from rfl)
    rw [readInodeSectors, cmul, check_ok base, ok_bind, cadd, check_ok stop, ok_bind, cadd, check_ok sector,
      ok_bind, cslice, check_ok slice, ok_bind]
    cases disk (first + i) with
    | none => exact ⟨none, rfl⟩
    | some bytes => exact ih (i + 1) (by omega) (patch buf (i * SECTOR) SECTOR bytes)

end Reading

section Groups

theorem checkBitmap_safe :
    Safe (checkBitmap disk geo bgd blocks report) ↔ Ext2Fs.blockBitmap bgd * geo.blockSize < WORD ∧
        (geo.blockSize ≤ BITMAP_BUF → BitmapReadable disk geo bgd → Ext2Fs.freeBlocksCount bgd ≤ blocks) := by
  rw [checkBitmap, cdivCeil, check_ok (by decide), ok_bind, cmul, safe_bind_check]
  refine and_congr_right fun start => ?_
  split
  · next large => exact ⟨fun _ fits => absurd fits (by omega), fun _ => safe_ok report⟩
  · next fits =>
    have low : Ext2Fs.blockBitmap bgd * geo.blockSize / SECTOR + 8 < WORD := by
      rw [WORD_eq] at start ⊢
      rw [SECTOR]
      omega
    have few : 0 + (geo.blockSize + SECTOR - 1) / SECTOR ≤ 8 := by
      rw [BITMAP_BUF] at fits
      rw [SECTOR]
      omega
    obtain ⟨result, done, read⟩ := readBitmap_ok disk low _ 0 few fun _ => 0
    have readable : BitmapReadable disk geo bgd ↔ result.isSome := by
      rw [read, zero_add]
      exact ⟨fun all k _ below => all k below, fun all k below => all k (zero_le k) below⟩
    rw [safe_bind_ok done, readable]
    cases result with
    | none => exact ⟨fun _ _ wrong => absurd wrong (by simp), fun _ => safe_ok report⟩
    | some buf =>
      have bits : geo.blockSize * 8 < WORD := by
        rw [BITMAP_BUF] at fits
        rw [WORD_eq]
        omega
      have inside : ∀ i ∈ range (min blocks (geo.blockSize * 8)), i / 8 < BITMAP_BUF := by
        intro i listed
        rw [mem_range] at listed
        omega
      obtain ⟨setBits, counted⟩ := countBits_safe buf _ 0 inside (by
        rw [length_range]
        omega)
      dsimp only
      rw [cmul, check_ok bits, ok_bind, safe_bind_ok counted, csub, safe_bind_check]
      exact ⟨fun safe _ _ => safe.1, fun sane => ⟨sane (by omega) rfl, safe_ok _⟩⟩

theorem ceil_le (a : Nat) (pos : 0 < b) : (a + b - 1) / b ≤ a := by
  refine Nat.le_of_lt_succ ((Nat.div_lt_iff_lt_mul pos).mpr ?_)
  have grows := Nat.le_mul_of_pos_right a pos
  rw [Nat.succ_mul]
  omega

theorem checkGroup_safe (bounded : geo.Bounded) (small : g < geo.numGroups) :
    Safe (checkGroup disk geo report g) ↔ GroupSane disk geo g := by
  have groups := bounded.numGroups
  rw [checkGroup, safe_bind_ok (readBgd_ok bounded (by omega)), GroupSane]
  cases descriptor disk geo g with
  | none => exact ⟨fun _ bgd wrong => absurd wrong (by simp), fun _ => safe_ok _⟩
  | some bgd =>
    have inodes : geo.groupInodes (g = geo.numGroups - 1) < 2 ^ 32 := by
      have first := bounded.inodesPerGroup
      have last := bounded.lastGroupInodes
      unfold groupInodes
      split <;> omega
    have table : geo.groupInodes (g = geo.numGroups - 1) * geo.inodeSize < 2 ^ 32 * 2 ^ 16 :=
      mul_lt_mul'' inodes bounded.inodeSize
    have bytes : geo.groupInodes (g = geo.numGroups - 1) * geo.inodeSize < WORD := by
      rw [WORD_eq]
      omega
    dsimp only
    rw [csub, check_ok (succ_le_of_lt bounded.numGroups_pos), ok_bind, cmul, check_ok bytes, ok_bind,
      cdivCeil, safe_bind_check]
    simp only [mem_some_iff, forall_eq']
    refine and_congr_right fun size => ?_
    have blocks : Ext2Fs.inodeTable bgd + (geo.groupInodes (g = geo.numGroups - 1) * geo.inodeSize +
        geo.blockSize - 1) / geo.blockSize < WORD := by
      have entry : Ext2Fs.inodeTable bgd < 2 ^ 32 := le32_lt ..
      have count := ceil_le (geo.groupInodes (g = geo.numGroups - 1) * geo.inodeSize) (pos_of_ne_zero size)
      rw [WORD_eq]
      omega
    rw [cadd, check_ok blocks, ok_bind]
    exact checkBitmap_safe

end Groups

section Root

theorem inodeReadSectors_le (fits : inodeReadSectors offset size INODE_BUF = some needed) : needed ≤ 2 := by
  obtain ⟨total, _, fits⟩ := bind_eq_some_iff.mp fits
  rw [INODE_BUF] at fits
  split at fits
  · simp at fits
  · have same := some.inj fits
    omega

theorem readInode_safe (bounded : geo.Bounded) (used : geo.inodesPerGroup ≠ 0) :
    Safe (readInode disk geo 2) ↔ RootSane disk geo := by
  have some : ¬ (geo.inodesPerGroup = 0 ∨ 2 = 0) := by omega
  have one : 2 - 1 = 1 := rfl
  have group : 1 / geo.inodesPerGroup < 2 ^ 32 := lt_of_le_of_lt (div_le_self ..) (by decide)
  have index : 1 % geo.inodesPerGroup ≤ 1 := mod_le ..
  rw [readInode, if_neg some, csub, check_ok (by decide), ok_bind, cdiv, check_ok used, ok_bind, crem,
    check_ok used, ok_bind, one, mod_eq_of_lt group, mod_eq_of_lt (lt_of_le_of_lt index (by decide)),
    safe_bind_ok (readBgd_ok bounded group), RootSane, rootGroup]
  cases descriptor disk geo (1 / geo.inodesPerGroup) with
  | none => exact ⟨fun _ bgd wrong => absurd wrong (by simp), fun _ => safe_ok _⟩
  | some bgd =>
    have size := bounded.inodeSize
    have product : 1 % geo.inodesPerGroup * geo.inodeSize ≤ 1 * geo.inodeSize := mul_le_mul_right _ index
    have offset : 1 % geo.inodesPerGroup * geo.inodeSize < WORD := by
      rw [WORD_eq]
      omega
    dsimp only
    rw [cmul, check_ok offset, ok_bind, cmul, safe_bind_check]
    simp only [mem_some_iff, forall_eq']
    refine and_iff_left_of_imp fun table => ?_
    have sector : Ext2Fs.inodeTable bgd * geo.blockSize / SECTOR +
        1 % geo.inodesPerGroup * geo.inodeSize / SECTOR + 2 < WORD := by
      rw [WORD_eq] at table ⊢
      rw [SECTOR]
      omega
    rw [cadd, check_ok (by omega), ok_bind]
    cases fits : inodeReadSectors (1 % geo.inodesPerGroup * geo.inodeSize % SECTOR) geo.inodeSize INODE_BUF with
    | none => exact safe_ok _
    | some needed =>
      obtain ⟨buf, done⟩ := readInodeSectors_ok disk sector needed 0
        (by have few := inodeReadSectors_le fits; omega) fun _ => 0
      exact (safe_bind_ok done).mpr (safe_ok _)

theorem checkRoot_safe (bounded : geo.Bounded) (used : geo.inodesPerGroup ≠ 0) :
    Safe (checkRoot disk geo report) ↔ RootSane disk geo := by
  refine (safe_bind_const fun root => iff_true_intro ?_).trans
    ((iff_of_eq (and_true _)).trans (readInode_safe bounded used))
  cases root with
  | none | some raw => exact safe_ok _

end Root

section Survival

namespace RawSuperblock

def numGroups (sb : RawSuperblock) : Nat :=
  max ((sb.inodesCount + sb.inodesPerGroup - 1) / sb.inodesPerGroup)
    ((sb.blocksCount + sb.blocksPerGroup - 1) / sb.blocksPerGroup)

/-- The geometry for a block size that is not shifted out. -/
def geometry (sb : RawSuperblock) : Geometry :=
  Geometry.ofSuperblock sb (1024 * 2 ^ sb.logBlockSize) sb.numGroups

end RawSuperblock

/-- What `fsck` needs of a device: no shift by 64 or more and, where there are groups, a
    block size that is not shifted out, bitmaps that can be compared with the counters,
    and a table for the root inode that has an address. -/
def Survivable (disk : RawDisk) : Prop :=
  ∀ sb ∈ readRawSb disk, sb.magic = EXT2_MAGIC → sb.logBlockSize < 64 ∧
    (sb.inodesPerGroup ≠ 0 → sb.blocksPerGroup ≠ 0 → 0 < sb.numGroups → sb.logBlockSize < 54 ∧
      (∀ g < sb.numGroups, ∀ bgd ∈ descriptor disk sb.geometry g, BitmapSane disk sb.geometry g bgd) ∧
      RootSane disk sb.geometry)

variable {sb : RawSuperblock} {blockSize numGroups inodeGroups blocksGroups log : Nat}

theorem ofSuperblock_bounded (size : blockSize < WORD) (pos : 0 < numGroups)
    (few : numGroups ≤ 2 ^ 32) : (ofSuperblock sb blockSize numGroups).Bounded where
  blockSize := size
  numGroups_pos := pos
  numGroups := few
  inodesPerGroup := le32_lt ..
  lastGroupInodes := lt_of_le_of_lt (sub_le ..) (le32_lt ..)
  inodeSize := by
    show sb.inodeSize < 2 ^ 16
    unfold RawSuperblock.inodeSize
    split
    · exact le16_lt ..
    · decide

theorem checkGroups_safe (size : blockSize < WORD)
    (used : sb.inodesPerGroup ≠ 0) (few : max inodeGroups blocksGroups ≤ 2 ^ 32) :
    Safe (checkGroups disk sb blockSize inodeGroups blocksGroups) ↔ (0 < max inodeGroups blocksGroups →
        let geo := ofSuperblock sb blockSize (max inodeGroups blocksGroups)
        (∀ g < max inodeGroups blocksGroups, GroupSane disk geo g) ∧ RootSane disk geo) := by
  rw [checkGroups]
  by_cases none : max inodeGroups blocksGroups = 0
  · rw [if_pos none]
    exact ⟨fun _ pos => absurd pos (by omega), fun _ => safe_ok _⟩
  · have pos := pos_of_ne_zero none
    have bounded : (ofSuperblock sb blockSize (max inodeGroups blocksGroups)).Bounded :=
      ofSuperblock_bounded size pos few
    rw [if_neg none, safe_bind_const fun report => checkRoot_safe bounded used, forall_prop_of_true pos]
    refine and_congr_left fun _ => (safe_foldlM (GroupSane disk
      (ofSuperblock sb blockSize (max inodeGroups blocksGroups))) (fun report g listed => ?_) _).trans ?_
    · exact checkGroup_safe bounded (mem_range.mp listed)
    · simp only [mem_range]

theorem blockSize_of_lt (small : log < 54) : 1024 <<< log % WORD = 1024 * 2 ^ log ∧ 1024 * 2 ^ log ≠ 0 := by
  have power : 2 ^ log ≤ 2 ^ 53 := Nat.pow_le_pow_right (by decide) (by omega)
  have pos := Nat.two_pow_pos log
  rw [Nat.shiftLeft_eq, WORD_eq]
  exact ⟨mod_eq_of_lt (by omega), by omega⟩

theorem blockSize_of_ge (large : 54 ≤ log) : 1024 <<< log % WORD = 0 := by
  obtain ⟨k, rfl⟩ := Nat.exists_eq_add_of_le large
  rw [Nat.shiftLeft_eq, Nat.pow_add, ← Nat.mul_assoc]
  exact mul_mod_right _ _

/-- With a block size of zero the first descriptor is read from the first sector, which
    was read before. -/
theorem not_groupSane_zero (readable : readRawSb disk = some sb) :
    ¬ GroupSane disk (ofSuperblock sb 0 numGroups) 0 := by
  obtain ⟨first, found, _⟩ := bind_eq_some_iff.mp readable
  intro sane
  refine (sane (view first 0) ?_).1 rfl
  have sector : (ofSuperblock sb 0 numGroups).bgdtStart * (ofSuperblock sb 0 numGroups).blockSize /
      SECTOR + 0 * DESCRIPTOR_BYTES / SECTOR = 0 := by
    rw [ofSuperblock, Nat.mul_zero, Nat.zero_mul, Nat.zero_div]
  rw [mem_def, descriptor, sector, found]
  rfl

theorem numGroups_le (inodes : sb.inodesPerGroup ≠ 0) (blocks : sb.blocksPerGroup ≠ 0) :
    sb.numGroups ≤ 2 ^ 32 := by
  have first := ceil_le sb.inodesCount (pos_of_ne_zero inodes)
  have second := ceil_le sb.blocksCount (pos_of_ne_zero blocks)
  have inodesCount : sb.inodesCount < 2 ^ 32 := le32_lt ..
  have blocksCount : sb.blocksCount < 2 ^ 32 := le32_lt ..
  exact Nat.max_le.mpr ⟨by omega, by omega⟩

/-- `fsck` ends with a report exactly on the devices that meet the conditions. -/
theorem fsck_safe_iff_survivable (disk : RawDisk) : Safe (fsck disk) ↔ Survivable disk := by
  rw [fsck, Survivable]
  cases readable : readRawSb disk with
  | none => exact ⟨fun _ sb wrong => absurd wrong (by simp), fun _ => safe_ok _⟩
  | some sb =>
    simp only [mem_some_iff, forall_eq']
    by_cases magic : sb.magic = EXT2_MAGIC
    · rw [if_neg (not_not.mpr magic), cshl, safe_bind_check, forall_prop_of_true magic]
      refine and_congr_right fun shift => ?_
      by_cases noInodes : sb.inodesPerGroup = 0
      · rw [groupCount, if_pos noInodes]
        exact ⟨fun _ used => absurd noInodes used, fun _ => safe_ok _⟩
      by_cases noBlocks : sb.blocksPerGroup = 0
      · rw [groupCount, if_neg noInodes, groupCount, if_pos noBlocks]
        exact ⟨fun _ _ used => absurd noBlocks used, fun _ => safe_ok _⟩
      rw [groupCount, if_neg noInodes, groupCount, if_neg noBlocks, forall_prop_of_true noInodes,
        forall_prop_of_true noBlocks]
      have size : 1024 <<< sb.logBlockSize % WORD < WORD := Nat.mod_lt _ (by decide)
      refine (checkGroups_safe size noInodes (numGroups_le noInodes noBlocks)).trans
        (imp_congr_right fun pos => ?_)
      by_cases small : sb.logBlockSize < 54
      · obtain ⟨whole, nonzero⟩ := blockSize_of_lt small
        rw [whole, and_iff_right small]
        refine and_congr_left fun _ => forall₂_congr fun g _ => forall₂_congr fun bgd _ => ?_
        exact and_iff_right nonzero
      · rw [blockSize_of_ge (Nat.le_of_not_lt small)]
        exact ⟨fun sane => absurd (sane.1 0 pos) (not_groupSane_zero readable),
          fun wrong => absurd wrong.1 small⟩
    · rw [if_pos magic]
      exact ⟨fun _ right => absurd right magic, fun _ => safe_ok _⟩

def diskOf (bytes : List (Nat × UInt8)) : RawDisk := fun sector =>
  some fun i => (bytes.lookup (SECTOR * sector + i)).getD 0

/-- The magic number of a superblock, and one group of eight blocks and eight inodes. -/
def oneGroup : List (Nat × UInt8) :=
  [(1080, 0x53), (1081, 0xEF), (1024, 8), (1028, 8), (1056, 8), (1064, 8)]

/-- Four devices that `fsck` does not survive: a block size of `1024 << 64`; one of
    `1024 << 54`, which is zero; a bitmap in block `2 ^ 31` with blocks of 8 GiB; and
    nine free blocks in the group of eight. -/
theorem fsck_faults :
    faultOf (fsck (diskOf ((1048, 64) :: oneGroup))) = some .shift ∧
    faultOf (fsck (diskOf ((1048, 54) :: oneGroup))) = some .division ∧
    faultOf (fsck (diskOf ((1048, 23) :: (2 ^ 33 + 3, 0x80) :: oneGroup))) = some .overflow ∧
    faultOf (fsck (diskOf ((2048, 3) :: (2056, 4) :: (2060, 9) :: oneGroup))) = some .overflow ∧
    ¬ Safe (fsck (diskOf ((2048, 3) :: (2056, 4) :: (2060, 9) :: oneGroup))) := by
  have difference : faultOf (fsck (diskOf ((2048, 3) :: (2056, 4) :: (2060, 9) :: oneGroup))) =
      some .overflow := by decide +kernel
  refine ⟨by decide +kernel, by decide +kernel, by decide +kernel, difference, ?_⟩
  exact not_safe_of_faultOf difference

end Survival

end Zenus.Fs
