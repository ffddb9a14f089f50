import Zenus.Fs.Ext2Read

/-! # Writing and reading back

A write of a file without holes, in a consistent image, changes the bytes it writes and
no others, with one exception: a write that begins where the file ends, in the middle of
a block, overwrites the bytes before it in this block with zeros.
-/

namespace Zenus.Fs

open Lib.Image Lib.Word List Option Nat Function

namespace Ext2Fs

variable {fs : Ext2Fs} {img img' : Img} {raw raw' : RawInode} {raws raws' : Nat → RawInode}
variable {files : Set Nat} {spare : Prop} {n m offset k len a newSize pos b x : Nat} {buf : List UInt8}

section Records

theorem onDisk_eq (found : fs.inodeAddr img n = some a) : fs.onDisk img n = view img a := by
  rw [onDisk, readInodeRaw, found, map_some, getD_some]

theorem fields_congr (same : ∀ i < INODE_BYTES, raw' i = raw i) :
    (∀ k < 14, raw'.block k = raw.block k) ∧ raw'.sizeLow = raw.sizeLow := by
  rw [INODE_BYTES] at same
  exact ⟨fun k below => le32_congr fun i small => same _ (by omega),
    le32_congr fun i small => same _ (by omega)⟩

theorem blockOf_fields (fs : Ext2Fs) (img : Img) (fields : ∀ k < 14, raw'.block k = raw.block k) (role : Role) :
    fs.blockOf img raw' role = fs.blockOf img raw role :=
  blockOf_congr fields (fun _ _ _ _ _ _ => rfl) role

theorem stat_size (known : 0 < n ∧ n ≤ fs.inodesCount) :
    (fs.stat img n).size = (fs.onDisk img n).sizeLow := by
  rw [stat, readInodeRaw_eq known]

theorem Grown.read_other (consistent : fs.Consistent img (fs.onDisk img) files spare)
    (grown : Grown fs files n img (fs.onDisk img) img' raws') (mem : m ∈ files) (other : m ≠ n) :
    fs.read img' m offset len = fs.read img m offset len := by
  have known := consistent.known m mem
  have found := fs.inodeAddr_eq img known
  have found' := (inodeAddr_congr consistent mem grown.tables).trans found
  obtain ⟨fields, size⟩ : (∀ k < 14, (fs.onDisk img' m).block k = (fs.onDisk img m).block k) ∧
      (fs.onDisk img' m).sizeLow = (fs.onDisk img m).sizeLow := by
    rw [onDisk_eq found, onDisk_eq found']
    refine fields_congr fun i below => grown.records m mem other _ ⟨_, found, ?_, ?_⟩
    · exact le_add_right _ _
    · exact Nat.add_lt_add_left below _
  refine read_congr known size (fun idx => ?_) fun idx b x mapped inside => ?_
  · exact (blockOf_fields fs img' fields (.data idx)).trans (grown.blocks m mem other (.data idx))
  · exact grown.bytes m mem other (.data idx) x ⟨b, mapped, inside⟩

theorem writeInodeRaw_spec (consistent : fs.Consistent img raws files spare) (mem : n ∈ files)
    (saved : fs.writeInodeRaw img n raw = some img') (fields : ∀ k < 14, raw.block k = (raws n).block k) :
    Grown fs files n img raws img' raws ∧ (fs.onDisk img' n).sizeLow = raw.sizeLow ∧
      ∀ p, fs.byteAt img' (fs.onDisk img' n) p = fs.byteAt img (raws n) p := by
  obtain ⟨a, found, rfl⟩ := map_eq_some_iff.mp saved
  have here : ∀ x, patch img a INODE_BYTES raw x ≠ img x → ∀ p, fs.Live files p → fs.Holds img raws p x →
      p = .inode n := by
    intro x changed p live held
    by_contra other
    refine changed (patch_outside ?_)
    by_contra within
    exact other (consistent.apart p (.inode n) x live mem held ⟨a, found, by omega, by omega⟩)
  have blocks : ∀ role, fs.blockOf (patch img a INODE_BYTES raw) (raws n) role = fs.blockOf img (raws n) role :=
    blockOf_spared fun x changed role _ held =>
      Part.noConfusion (here x changed (.block n role) mem held)
  have soft : ∀ x, patch img a INODE_BYTES raw x ≠ img x → ∀ p, fs.Live files p → fs.Holds img raws p x →
      fs.Soft n p x := by
    intro x changed p live held
    rw [here x changed p live held]
    rfl
  have grown := grown_of_soft soft fun role b mapped => (blocks role).trans mapped
  have found' := (inodeAddr_congr consistent mem grown.tables).trans found
  have record : ∀ i < INODE_BYTES, fs.onDisk (patch img a INODE_BYTES raw) n i = raw i := by
    intro i below
    rw [onDisk_eq found', view, patch_add below]
  obtain ⟨fields', size⟩ := fields_congr record
  refine ⟨grown, size, fun p => ?_⟩
  have mapping : ∀ idx, fs.inodeReadBlock (patch img a INODE_BYTES raw)
      (fs.onDisk (patch img a INODE_BYTES raw) n) idx = fs.inodeReadBlock img (raws n) idx := by
    intro idx
    have same : ∀ k < 14, (fs.onDisk (patch img a INODE_BYTES raw) n).block k = (raws n).block k :=
      fun k below => (fields' k below).trans (fields k below)
    exact (blockOf_fields fs _ same (.data idx)).trans (blocks (.data idx))
  rw [byteAt, byteAt, mapping]
  cases block : fs.inodeReadBlock img (raws n) (p / fs.blockSize) with
  | none => rfl
  | some c =>
    rw [map_some, map_some]
    congr 1
    by_contra changed
    exact Part.noConfusion (here _ changed (.block n (.data (p / fs.blockSize))) mem
      ⟨c, block, inBlock_add c (fs.mod_lt_blockSize p)⟩)

end Records

/-- What a write leaves: its bytes, the size, the other files, and the bytes that were
    there before, some of them as zeros. -/
structure Written (fs : Ext2Fs) (files : Set Nat) (n : Nat) (img : Img) (offset : Nat) (buf : List UInt8)
    (img' : Img) : Prop where
  within : offset ≤ (fs.onDisk img n).sizeLow
  size : (fs.onDisk img' n).sizeLow = max (fs.onDisk img n).sizeLow (offset + buf.length)
  written : ∀ p, offset ≤ p → p < offset + buf.length →
    fs.byteAt img' (fs.onDisk img' n) p = some (buf.getD (p - offset) 0)
  rest : ∀ p v, p < (fs.onDisk img n).sizeLow → p < offset ∨ offset + buf.length ≤ p →
    fs.byteAt img (fs.onDisk img n) p = some v →
    fs.byteAt img' (fs.onDisk img' n) p = some (if 0 < buf.length ∧ offset = (fs.onDisk img n).sizeLow ∧
      p / fs.blockSize = offset / fs.blockSize then 0 else v)
  others : ∀ m ∈ files, m ≠ n → ∀ off len, fs.read img' m off len = fs.read img m off len

theorem newSize_fields (raw : RawInode) (small : ¬ (raw.sizeLow < newSize ∧ 2 ^ 32 ≤ newSize)) :
    (∀ k < 14, (if raw.sizeLow < newSize then raw.setSizeLow newSize else raw).block k = raw.block k) ∧
      (if raw.sizeLow < newSize then raw.setSizeLow newSize else raw).sizeLow = max raw.sizeLow newSize := by
  split
  · next grows =>
    refine ⟨fun k _ => le32_put32_of_ne (by omega), ?_⟩
    rw [max_eq_right (le_of_lt grows)]
    exact le32_put32 (by omega)
  · next fits => exact ⟨fun _ _ => rfl, (Nat.max_eq_left (by omega)).symm⟩

theorem write_spec (consistent : fs.Consistent img (fs.onDisk img) files spare) (mem : n ∈ files)
    (need : NeedsBlock fs img (fs.onDisk img n) offset buf → spare)
    (done : fs.write img n offset buf = (some k, img')) :
    k = buf.length ∧ Written fs files n img offset buf img' := by
  rw [write, readInodeRaw_eq (consistent.known n mem)] at done
  dsimp only at done
  split at done
  · simp at done
  · next within =>
    split at done
    · simp at done
    · next last img1 looped =>
      obtain ⟨raw1, w⟩ := last
      obtain ⟨rfl, progress⟩ := writeLoop_progress consistent mem need (by omega) _
        (Progress.start consistent offset buf) looped
      split at done
      · simp at done
      · next newSize sum =>
        cases eq_of_checkedAdd sum
        split at done
        · simp at done
        · next small =>
          split at done
          · simp at done
          · next img2 saved =>
            obtain ⟨rfl, rfl⟩ : buf.length = k ∧ img2 = img' := by simpa using done
            obtain ⟨fields, size⟩ := newSize_fields raw1 small
            obtain ⟨grown, size', bytes⟩ := writeInodeRaw_spec progress.consistent mem saved (by
              rwa [update_self])
            rw [update_self] at bytes
            have whole := progress.grown.trans consistent grown
            refine ⟨rfl, by omega, ?_, ?_, ?_, ?_⟩
            · rw [size', size, progress.kept]
            · exact fun p above below => (bytes p).trans (progress.written p above below)
            · exact fun p v old outside was => (bytes p).trans (progress.rest p v old outside was)
            · exact fun m memM other off len => whole.read_other consistent memM other

section Law

/-- The law of a write that returned `k`. -/
structure WriteLaw (fs : Ext2Fs) (files : Set Nat) (n : Nat) (img : Img) (offset : Nat) (buf : List UInt8)
    (k : Nat) (img' : Img) : Prop where
  readBack : fs.read img' n offset k = some (buf.take k)
  unchanged : ∀ pos < (fs.stat img n).size, pos < offset ∨ offset + k ≤ pos →
    fs.read img' n pos 1 = fs.read img n pos 1
  size : (fs.stat img' n).size = max (fs.stat img n).size (offset + k)
  others : ∀ m ∈ files, m ≠ n → ∀ off len, fs.read img' m off len = fs.read img m off len

/-- There is nothing to write, or the write begins below the end of the file or at the
    start of a block, or there are only zeros before it in its block. -/
def KeepsBlock (fs : Ext2Fs) (img : Img) (n offset : Nat) (buf : List UInt8) : Prop :=
  buf = [] ∨ offset < (fs.stat img n).size ∨ offset % fs.blockSize = 0 ∨
    ∀ pos, offset / fs.blockSize * fs.blockSize ≤ pos → pos < offset → fs.read img n pos 1 = some [0]

theorem read_one {v : UInt8} (known : 0 < n ∧ n ≤ fs.inodesCount)
    (dense : fs.Dense img (fs.onDisk img n)) (below : pos < (fs.onDisk img n).sizeLow)
    (here : fs.byteAt img (fs.onDisk img n) pos = some v) : fs.read img n pos 1 = some [v] := by
  have one : min 1 ((fs.onDisk img n).sizeLow - pos) = 1 := by omega
  rw [read_dense known dense, one, bytesFrom, range_one, map_singleton, add_zero, here, getD_some]

section

variable (written : Written fs files n img offset buf img')

include written

theorem Written.dense (dense : fs.Dense img (fs.onDisk img n)) : fs.Dense img' (fs.onDisk img' n) := by
  intro pos below
  rw [written.size] at below
  have within := written.within
  by_cases inside : offset ≤ pos ∧ pos < offset + buf.length
  · rw [written.written pos inside.1 inside.2]
    rfl
  · obtain ⟨v, was⟩ := isSome_iff_exists.mp (dense pos (by omega))
    rw [written.rest pos v (by omega) (by omega) was]
    rfl

theorem Written.read_rest (known : 0 < n ∧ n ≤ fs.inodesCount) (dense : fs.Dense img (fs.onDisk img n))
    (old : pos < (fs.onDisk img n).sizeLow) (outside : pos < offset ∨ offset + buf.length ≤ pos) :
    fs.read img' n pos 1 = if 0 < buf.length ∧ offset = (fs.onDisk img n).sizeLow ∧
      pos / fs.blockSize = offset / fs.blockSize then some [0] else fs.read img n pos 1 := by
  obtain ⟨v, was⟩ := isSome_iff_exists.mp (dense pos old)
  have below : pos < (fs.onDisk img' n).sizeLow := by
    rw [written.size]
    omega
  rw [read_one known (written.dense dense) below (written.rest pos v old outside was),
    read_one known dense old was]
  split
  · rfl
  · rfl

theorem Written.readBack (known : 0 < n ∧ n ≤ fs.inodesCount) (dense : fs.Dense img (fs.onDisk img n)) :
    fs.read img' n offset buf.length = some buf := by
  have count : min buf.length ((fs.onDisk img' n).sizeLow - offset) = buf.length := by
    rw [written.size]
    omega
  rw [read_dense known (written.dense dense), count, bytesFrom]
  refine congrArg some (ext_getElem (by simp) fun i left right => ?_)
  rw [getElem_map, getElem_range, written.written _ (by omega) (by omega), getD_some, Nat.add_sub_cancel_left]
  exact getD_eq_getElem _ _ right

end

/-- A consistent image as ext2 has it, where the groups begin with block `first`: no byte is
    in two parts, and a block whose bit is clear is on the device and in none. -/
structure ConsistentFrom (fs : Ext2Fs) (first : Nat) (img : Img) (files : Set Nat) : Prop where
  known : ∀ n ∈ files, 0 < n ∧ n ≤ fs.inodesCount
  apart : ∀ p q x, fs.Live files p → fs.Live files q → fs.Holds img (fs.onDisk img) p x →
    fs.Holds img (fs.onDisk img) q x → p = q
  free : ∀ g i, g < fs.groups → i < fs.blocksPerGroup → fs.bitAt img g i = false →
    first + (g * fs.blocksPerGroup + i) < fs.blocksCount ∧
    ∀ p x, fs.Live files p → fs.InBlock (first + (g * fs.blocksPerGroup + i)) x →
      ¬ fs.Holds img (fs.onDisk img) p x

/-- Without a first data block `alloc_block` numbers the bits as ext2 does. -/
theorem ConsistentFrom.consistent {first : Nat} (sound : fs.ConsistentFrom first img files)
    (counted : first = 0 ∨ ¬ spare) : fs.Consistent img (fs.onDisk img) files spare := by
  refine ⟨sound.known, sound.apart, fun needed g i live inside clear => ?_⟩
  obtain rfl := counted.resolve_right (not_not.mpr needed)
  have free := sound.free g i live (groupBits_lt inside).1 clear
  rwa [Nat.zero_add] at free

/-- The law holds exactly where the block of the write is kept, if ext2 counts its blocks from
    zero or the file has every block that the write reaches. -/
theorem writeLaw_iff_keepsBlock {first : Nat} (sound : fs.ConsistentFrom first img files)
    (counted : first = 0 ∨ ¬ NeedsBlock fs img (fs.onDisk img n) offset buf)
    (mem : n ∈ files) (dense : fs.Dense img (fs.onDisk img n)) (done : fs.write img n offset buf = (some k, img')) :
    WriteLaw fs files n img offset buf k img' ↔ KeepsBlock fs img n offset buf := by
  have consistent := sound.consistent counted
  have known := consistent.known n mem
  obtain ⟨rfl, written⟩ := write_spec consistent mem id done
  have within := written.within
  have size : (fs.stat img n).size = (fs.onDisk img n).sizeLow := stat_size known
  refine ⟨fun law => ?_, fun keeps => ⟨?_, ?_, ?_, written.others⟩⟩
  · by_cases empty : buf = []
    · exact .inl empty
    by_cases inside : offset < (fs.stat img n).size
    · exact .inr (.inl inside)
    refine .inr (.inr (.inr fun pos above below => ?_))
    have same : pos / fs.blockSize = offset / fs.blockSize := by
      have reach := Nat.lt_div_mul_add fs.blockSize_pos (a := offset)
      refine Nat.div_eq_of_lt_le above ?_
      rw [Nat.succ_mul]
      omega
    have zeros := written.read_rest known dense (by omega) (.inl below)
    rw [if_pos ⟨length_pos_iff.mpr empty, by omega, same⟩] at zeros
    exact (law.unchanged pos (by omega) (.inl below)).symm.trans zeros
  · rw [take_length]
    exact written.readBack known dense
  · intro pos old outside
    rw [size] at old
    rw [written.read_rest known dense old outside]
    split
    · next zeros =>
      obtain ⟨more, ends, same⟩ := zeros
      have place := mod_of_same_block same
      obtain rfl | inside | aligned | before := keeps
      · exact absurd more (by simp)
      · omega
      · omega
      · refine (before pos ?_ (by omega)).symm
        rw [← same]
        exact Nat.div_mul_le_self ..
    · rfl
  · rw [size, stat_size known]
    exact written.size

end Law

section Allocation

/-- The bit that ext2 keeps for block `b`, where the groups begin with block `first`. -/
def bitOf (fs : Ext2Fs) (first : Nat) (img : Img) (b : Nat) : Bool :=
  fs.bitAt img ((b - first) / fs.blocksPerGroup) ((b - first) % fs.blocksPerGroup)

/-- What an allocation of block `b` has to do. -/
structure Takes (fs : Ext2Fs) (first : Nat) (img : Img) (b : Nat) (img' : Img) : Prop where
  low : first ≤ b
  high : b < fs.blocksCount
  clear : fs.bitOf first img b = false
  set : fs.bitOf first img' b = true
  others : ∀ g < fs.groups, ∀ i < fs.blockSize * 8,
    ¬ (g = (b - first) / fs.blocksPerGroup ∧ i = (b - first) % fs.blocksPerGroup) →
    fs.bitAt img' g i = fs.bitAt img g i
  again : ∀ later c later', fs.bitOf first later b = true → fs.allocBlock later = some (c, later') → c ≠ b

/-- The number of the first clear bit among those that `alloc_block` looks at. -/
def firstClear (fs : Ext2Fs) (img : Img) : Option Nat :=
  (range fs.groups).findSome? fun g =>
    ((fs.groupBits g).find? fun i => !fs.bitAt img g i).map (g * fs.blocksPerGroup + ·)

theorem allocIn_number (g : Nat) : (fs.allocIn img g).map Prod.fst =
    (((fs.groupBits g).find? fun i => !fs.bitAt img g i).map (g * fs.blocksPerGroup + ·)).map (· % 2 ^ 32) := by
  have bitmap : blockBitmap (view img (fs.bgdAddr g)) = fs.bitmapOf img g := by
    rw [blockBitmap, le32_view, add_zero, bitmapOf]
  rw [allocIn, readBlockBitmap, readBgdt_eq, map_some, bind_some, bitmap, readBlockData, blockAddr_eq, Option.map_map,
    Option.map_map]
  rfl

theorem allocBlock_number : (fs.allocBlock img).map Prod.fst = (fs.firstClear img).map (· % 2 ^ 32) := by
  rw [allocBlock, firstClear, groups]
  cases groupCount fs.blocksCount fs.blocksPerGroup with
  | none => rfl
  | some groups =>
    rw [bind_some, getD_some, map_findSome?, map_findSome?]
    exact congrArg (findSome? · (range groups)) (funext allocIn_number)

section

variable (fits : fs.groups * fs.blocksPerGroup ≤ 2 ^ 32)

include fits

theorem number_of_bit {g i : Nat} (live : g < fs.groups) (inside : i ∈ fs.groupBits g) :
    (g * fs.blocksPerGroup + i) % 2 ^ 32 = g * fs.blocksPerGroup + i := by
  refine Nat.mod_eq_of_lt (Nat.lt_of_lt_of_le ?_ ((Nat.mul_le_mul_right _ live).trans fits))
  rw [Nat.succ_mul]
  exact Nat.add_lt_add_left (groupBits_lt inside).1 _

theorem firstClear_of_alloc (done : fs.allocBlock img = some (b, img')) : fs.firstClear img = some b := by
  have number : (fs.firstClear img).map (· % 2 ^ 32) = some b := by
    rw [← allocBlock_number, done]
    rfl
  obtain ⟨c, first, rfl⟩ := map_eq_some_iff.mp number
  obtain ⟨g, live, bit⟩ := exists_of_findSome?_eq_some first
  obtain ⟨i, found, rfl⟩ := map_eq_some_iff.mp bit
  rw [number_of_bit fits (mem_range.mp live) (mem_of_find?_eq_some found)]
  exact first

end

/-- The first data block is not part of the numbers that are handed out, and neither is
    the end of the last group. -/
theorem allocBlock_takes_iff {first b : Nat} (consistent : fs.Consistent img raws files spare)
    (whole : fs.blocksPerGroup ≤ fs.blockSize * 8) (fits : fs.groups * fs.blocksPerGroup ≤ 2 ^ 32)
    (done : fs.allocBlock img = some (b, img')) :
    Takes fs first img b img' ↔ first = 0 ∧ ∀ c ∈ fs.firstClear img, c < fs.blocksCount := by
  have found := firstClear_of_alloc fits done
  obtain ⟨g, i, v, live, inside, clear, rfl, rfl⟩ := allocBlock_some done
  rw [number_of_bit fits live inside] at found ⊢
  simp only [found, mem_some_iff, forall_eq']
  obtain ⟨below, bits⟩ := groupBits_lt inside
  obtain ⟨group, index⟩ := div_mod_group g below
  constructor
  · intro takes
    have set := takes.set
    have earlier : (g * fs.blocksPerGroup + i - first) / fs.blocksPerGroup ≤ g :=
      (Nat.div_le_div_right (Nat.sub_le _ _)).trans_eq group
    rw [bitOf, bitAt_marked consistent live inside (earlier.trans_lt live)
      ((Nat.mod_lt _ fs.blocksPerGroup_pos).trans_le whole), ← bitOf, takes.clear, Bool.false_or,
      decide_eq_true_iff] at set
    have same := Nat.div_add_mod' (g * fs.blocksPerGroup + i - first) fs.blocksPerGroup
    rw [set.1, set.2] at same
    have low := takes.low
    exact ⟨by omega, takes.high⟩
  · rintro ⟨rfl, high⟩
    refine ⟨Nat.zero_le _, high, ?_, ?_, ?_, ?_⟩
    · rw [bitOf, Nat.sub_zero, group, index, clear]
    · rw [bitOf, Nat.sub_zero, group, index, bitAt_marked consistent live inside live bits,
        decide_eq_true ⟨rfl, rfl⟩, Bool.or_true]
    · intro g' live' i' bits' other
      rw [Nat.sub_zero, group, index] at other
      rw [bitAt_marked consistent live inside live' bits', decide_eq_false other, Bool.or_false]
    · rintro later c later' set taken rfl
      obtain ⟨g', i', _, live', inside', clear', same, _⟩ := allocBlock_some taken
      rw [number_of_bit fits live' inside'] at same
      obtain ⟨rfl, rfl⟩ := place_unique below (groupBits_lt inside').1 same
      rw [bitOf, Nat.sub_zero, group, index, clear'] at set
      cases set

end Allocation

section Sample

/-- Eight blocks of 1 KiB: the superblock in block 1, then a descriptor, a bitmap with no
    block free and an inode table, and two files of one byte, inodes 3 and 4, in blocks 6
    and 7. -/
def smallFs : Ext2Fs where
  logBlockSize := 0
  blocksPerGroup := 8
  inodesPerGroup := 8
  inodesCount := 8
  blocksCount := 8
  inodeSize := 128
  log_le := by decide
  blocksCount_lt := by decide
  blocksPerGroup_pos := by decide
  inodesPerGroup_pos := by decide
  inodeSize_ge := by decide
  inodeSize_le := by decide

def smallImg : Img := fun x =>
  match x with
  | 2048 => 3
  | 2056 => 4
  | 3072 => 0xFF
  | 4353 => 0x81
  | 4356 => 1
  | 4392 => 6
  | 4481 => 0x81
  | 4484 => 1
  | 4520 => 7
  | 6144 => 0x41
  | 7168 => 0x43
  | _ => 0

def smallFiles : Set Nat := {n | n ∈ [3, 4]}

theorem smallFiles_range (mem : n ∈ smallFiles) : 3 ≤ n ∧ n ≤ 4 := by
  rcases mem_pair.mp mem with rfl | rfl <;> decide

/-- What the image holds. -/
structure SmallImage : Prop where
  groups : smallFs.groups = 1
  blockSize : smallFs.blockSize = 1024
  descriptor : smallFs.bgdAddr 0 = 2048
  bitmap : smallFs.bitmapOf smallImg 0 = 3
  used : ∀ i < 8, smallFs.bitAt smallImg 0 i = true
  inode : ∀ n ∈ [3, 4], smallFs.inodeAddr smallImg n = some (3968 + 128 * n)
  sizeLow : (smallFs.onDisk smallImg 3).sizeLow = 1
  first : ∀ n ∈ [3, 4], smallFs.inodeReadBlock smallImg (view smallImg (3968 + 128 * n)) 0 = some (n + 3)
  others : ∀ n ∈ [3, 4], ∀ k < 14, k ≠ 0 → RawInode.block (view smallImg (3968 + 128 * n)) k = 0
  content : smallFs.read smallImg 3 0 1 = some [0x41]

theorem smallImage : SmallImage := by constructor <;> decide +kernel

theorem small_blockOf {role : Role} (mem : n ∈ [3, 4])
    (mapped : smallFs.blockOf smallImg (view smallImg (3968 + 128 * n)) role = some b) :
    role = .data 0 ∧ b = n + 3 := by
  have twelve := smallImage.others n mem 12 (by decide) (by decide)
  have thirteen := smallImage.others n mem 13 (by decide) (by decide)
  cases role with
  | single => simp [blockOf, twelve, nonzero] at mapped
  | double | inner k => simp [blockOf, thirteen, nonzero] at mapped
  | data idx =>
    have mapped : smallFs.inodeReadBlock smallImg (view smallImg (3968 + 128 * n)) idx = some b := mapped
    by_cases below : idx < 12
    · rw [inodeReadBlock_direct below] at mapped
      by_cases zero : idx = 0
      · subst zero
        exact ⟨rfl, some.inj (mapped.symm.trans (smallImage.first n mem))⟩
      · simp [smallImage.others n mem idx (by omega) zero, nonzero] at mapped
    · obtain ⟨j, rfl⟩ := Nat.exists_eq_add_of_le (Nat.le_of_not_lt below)
      rw [inodeReadBlock_double (fun both => both.2 twelve), thirteen, doubleAt,
        if_neg (fun both => both.2 rfl)] at mapped
      simp at mapped

theorem small_parts {p : Part} (live : smallFs.Live smallFiles p)
    (held : smallFs.Holds smallImg (smallFs.onDisk smallImg) p x) :
    p = .descriptor 0 ∧ 2048 ≤ x ∧ x < 3072 ∨ p = .bitmap 0 ∧ 3072 ≤ x ∧ x < 4096 ∨
      ∃ n, (3 ≤ n ∧ n ≤ 4) ∧ (p = .inode n ∧ 3968 + 128 * n ≤ x ∧ x < 4096 + 128 * n ∨
        p = .block n (.data 0) ∧ 3072 + 1024 * n ≤ x ∧ x < 4096 + 1024 * n) := by
  have groups := smallImage.groups
  have size := smallImage.blockSize
  cases p with
  | descriptor g =>
    have first : g = 0 := by
      obtain below | ⟨n, mem, group⟩ := live
      · omega
      · rcases mem_pair.mp mem with rfl | rfl <;> exact group.symm
    subst first
    rw [Holds, smallImage.descriptor, DESCRIPTOR_BYTES] at held
    exact .inl ⟨rfl, by omega, by omega⟩
  | bitmap g =>
    have below : g < smallFs.groups := live
    obtain rfl : g = 0 := by omega
    rw [Holds, smallImage.bitmap, InBlock, size] at held
    exact .inr (.inl ⟨rfl, by omega, by omega⟩)
  | inode n =>
    have mem : n ∈ [3, 4] := live
    obtain ⟨a, found, low, high⟩ := held
    rw [smallImage.inode n mem, some.injEq] at found
    rw [INODE_BYTES] at high
    exact .inr (.inr ⟨n, smallFiles_range mem, .inl ⟨rfl, by omega, by omega⟩⟩)
  | block n role =>
    have mem : n ∈ [3, 4] := live
    obtain ⟨b, mapped, inside⟩ := held
    rw [onDisk_eq (smallImage.inode n mem)] at mapped
    obtain ⟨rfl, rfl⟩ := small_blockOf mem mapped
    rw [InBlock, size] at inside
    exact .inr (.inr ⟨n, smallFiles_range mem, .inr ⟨rfl, by omega, by omega⟩⟩)

/-- The bits of the image are those of blocks 1 to 7, and of one that does not exist. -/
theorem small_consistent : smallFs.ConsistentFrom 1 smallImg smallFiles := by
  refine ⟨?_, ?_, ?_⟩
  · intro n mem
    have range := smallFiles_range mem
    exact ⟨by omega, range.2.trans (by decide)⟩
  · intro p q x liveP liveQ heldP heldQ
    have placeP := small_parts liveP heldP
    have placeQ := small_parts liveQ heldQ
    obtain ⟨rfl, _, _⟩ | ⟨rfl, _, _⟩ | ⟨n, _, ⟨rfl, _, _⟩ | ⟨rfl, _, _⟩⟩ := placeP <;>
      obtain ⟨rfl, _, _⟩ | ⟨rfl, _, _⟩ | ⟨m, _, ⟨rfl, _, _⟩ | ⟨rfl, _, _⟩⟩ := placeQ <;>
      first | rfl | omega | (congr 1; omega)
  · intro g i live inside clear
    have groups := smallImage.groups
    obtain rfl : g = 0 := by omega
    rw [smallImage.used i inside] at clear
    exact Bool.noConfusion clear

theorem small_dense : smallFs.Dense smallImg (smallFs.onDisk smallImg 3) := by
  have size := smallImage.sizeLow
  intro pos below
  obtain rfl : pos = 0 := by omega
  rfl

/-- The file has the block that a write of one byte reaches. -/
theorem small_block (buf : List UInt8) (short : offset + buf.length ≤ 1024) :
    ¬ NeedsBlock smallFs smallImg (smallFs.onDisk smallImg 3) offset buf := by
  rintro ⟨p, low, high, missing⟩
  rw [onDisk_eq (smallImage.inode 3 (by decide)), smallImage.blockSize, Nat.div_eq_of_lt (by omega),
    smallImage.first 3 (by decide)] at missing
  cases missing

theorem small_write (offset : Nat) (buf : List UInt8) (result : Option Nat) (byte : List UInt8)
    (returned : (smallFs.write smallImg 3 offset buf).1 = result)
    (after : smallFs.read (smallFs.write smallImg 3 offset buf).2 3 0 1 = some byte) :
    ∃ img', smallFs.write smallImg 3 offset buf = (result, img') ∧ smallFs.read img' 3 0 1 = some byte := by
  generalize smallFs.write smallImg 3 offset buf = run at *
  exact ⟨run.2, Prod.ext returned rfl, after⟩

/-- Overwriting the byte that the file has keeps the law, for the other file as well. -/
theorem writeLaw_overwrite : ∃ img', smallFs.write smallImg 3 0 [0x42] = (some 1, img') ∧
    WriteLaw smallFs smallFiles 3 smallImg 0 [0x42] 1 img' := by
  obtain ⟨img', done, _⟩ := small_write 0 [0x42] (some 1) [0x42] (by decide +kernel) (by decide +kernel)
  have inside : 0 < (smallFs.stat smallImg 3).size := by decide +kernel
  exact ⟨img', done, (writeLaw_iff_keepsBlock small_consistent (.inr (small_block _ (by decide)))
    (List.mem_cons_self ..) small_dense done).mpr (.inr (.inl inside))⟩

/-- Appending a byte to the file destroys the byte it has. -/
theorem append_zeroes_block : ∃ img', smallFs.ConsistentFrom 1 smallImg smallFiles ∧ 3 ∈ smallFiles ∧
    smallFs.Dense smallImg (smallFs.onDisk smallImg 3) ∧
    (smallFs.stat smallImg 3).fileType = .file ∧ (smallFs.stat smallImg 3).size = 1 ∧
    smallFs.write smallImg 3 1 [0x42] = (some 1, img') ∧
    smallFs.read smallImg 3 0 1 = some [0x41] ∧ smallFs.read img' 3 0 1 = some [0] ∧
    ¬ WriteLaw smallFs smallFiles 3 smallImg 1 [0x42] 1 img' := by
  have size : (smallFs.stat smallImg 3).size = 1 := by decide +kernel
  obtain ⟨img', done, after⟩ := small_write 1 [0x42] (some 1) [0] (by decide +kernel) (by decide +kernel)
  refine ⟨img', small_consistent, List.mem_cons_self .., small_dense, by decide +kernel, size, done,
    smallImage.content, after, fun law => ?_⟩
  have same := law.unchanged 0 (by omega) (.inl (by decide))
  rw [smallImage.content, after] at same
  cases same

/-- The same image with its last block free. -/
def roomyImg : Img := update smallImg 3072 0x7F

theorem roomy_consistent : smallFs.Consistent roomyImg (fun _ => roomyImg) ∅ False := by
  have groups := smallImage.groups
  have bitmap : smallFs.bitmapOf roomyImg 0 = 3 := by decide +kernel
  refine ⟨by simp, fun p q x liveP liveQ heldP heldQ => ?_, False.elim⟩
  have parts : ∀ {p}, smallFs.Live ∅ p → p = .descriptor 0 ∨ p = .bitmap 0 := by
    intro p live
    cases p <;> simp_all [Live]
  obtain rfl | rfl := parts liveP <;> obtain rfl | rfl := parts liveQ
  · rfl
  all_goals
    simp only [Holds, InBlock, DESCRIPTOR_BYTES, bitmap, smallImage.descriptor, smallImage.blockSize] at heldP heldQ
    first | rfl | omega

theorem roomy_alloc : ∃ img', smallFs.allocBlock roomyImg = some (7, img') := by
  have number : (smallFs.allocBlock roomyImg).map Prod.fst = some 7 := by decide +kernel
  obtain ⟨⟨_, img'⟩, done, rfl⟩ := map_eq_some_iff.mp number
  exact ⟨img', done⟩

/-- With no block in front of the first group the last block is taken as it should be. -/
theorem allocBlock_takes_last : ∃ img', smallFs.allocBlock roomyImg = some (7, img') ∧
    Takes smallFs 0 roomyImg 7 img' := by
  obtain ⟨img', done⟩ := roomy_alloc
  exact ⟨img', done, (allocBlock_takes_iff roomy_consistent (by decide) (by decide) done).mpr ⟨rfl, by decide +kernel⟩⟩

/-- Blocks of 1 KiB are counted from block 1 on: the bit of block 7 is the one before, and
    it is set already. -/
theorem allocBlock_shifted : ∃ img', smallFs.allocBlock roomyImg = some (7, img') ∧
    smallFs.bitOf 1 roomyImg 7 = true ∧ ¬ Takes smallFs 1 roomyImg 7 img' := by
  obtain ⟨img', done⟩ := roomy_alloc
  have used : smallFs.bitOf 1 roomyImg 7 = true := by decide +kernel
  exact ⟨img', done, used, fun takes => Bool.false_ne_true (takes.clear.symm.trans used)⟩

end Sample

end Ext2Fs

end Zenus.Fs
