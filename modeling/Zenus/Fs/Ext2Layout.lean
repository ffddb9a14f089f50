import Zenus.Fs.Ext2

/-! # What is where in an ext2 image

An image is consistent if no byte belongs to two of its parts: the descriptors and
bitmaps of the groups, the inodes in use, and the blocks of their files, each under
one role; and if the blocks whose bit is clear belong to none.  The bit `i` of group
`g` is read as the code reads it, as the bit of block `g * blocks_per_group + i`.
-/

namespace Zenus.Fs

open Lib.Image

namespace Ext2Fs

variable (fs : Ext2Fs)

section Geometry

theorem blockSize_eq : fs.blockSize = 1024 * 2 ^ fs.logBlockSize := Nat.shiftLeft_eq ..

theorem blockSize_pos : 0 < fs.blockSize := by
  rw [blockSize_eq]
  exact Nat.mul_pos (by decide) (Nat.two_pow_pos _)

theorem sector_dvd : SECTOR ∣ fs.blockSize := by
  rw [blockSize_eq, SECTOR]
  exact Dvd.dvd.mul_right (by decide) _

theorem four_mul_ptrs : 4 * fs.ptrsPerBlock = fs.blockSize := by
  refine Nat.mul_div_cancel' ?_
  rw [blockSize_eq]
  exact Dvd.dvd.mul_right (by decide) _

theorem sectors_mul (b : Nat) : b * fs.blockSize / SECTOR * SECTOR = b * fs.blockSize :=
  Nat.div_mul_cancel (Dvd.dvd.mul_left fs.sector_dvd b)

theorem blockAddr_eq (b : Nat) : fs.blockAddr b = b * fs.blockSize := fs.sectors_mul b

variable (img : Img) {n i : Nat}

theorem readBgdt_eq (g : Nat) : fs.readBgdt img g = some (view img (fs.bgdAddr g)) := by
  refine if_neg ?_
  rw [SECTOR, DESCRIPTOR_BYTES]
  omega

/-- The block of a group's bitmap, and of its inode table. -/
def bitmapOf (img : Img) (g : Nat) : Nat := le32 img (fs.bgdAddr g)
def tableOf (img : Img) (g : Nat) : Nat := le32 img (fs.bgdAddr g + 8)

def groupOf (n : Nat) : Nat := (n - 1) / fs.inodesPerGroup

theorem inodeAddr_eq (known : 0 < n ∧ n ≤ fs.inodesCount) :
    fs.inodeAddr img n = some (fs.tableOf img (fs.groupOf n) * fs.blockSize +
      (n - 1) % fs.inodesPerGroup * fs.inodeSize) := by
  rw [inodeAddr, if_neg (by omega), readBgdt_eq, Option.map_some]
  dsimp only
  rw [Nat.add_mul, fs.sectors_mul, Nat.add_assoc, Nat.div_add_mod']
  rfl

theorem entryAt_eq (b : Nat) (inside : i < fs.ptrsPerBlock) :
    fs.entryAt img b i = nonzero (le32 img (b * fs.blockSize + i * 4)) := by
  have whole := fs.four_mul_ptrs
  rw [entryAt, if_neg (by omega), readBlockData, blockAddr_eq]
  exact congrArg nonzero (le32_congr fun j _ => congrArg img (Nat.add_assoc _ _ _).symm)

theorem entryAt_outside (b : Nat) (outside : fs.ptrsPerBlock ≤ i) : fs.entryAt img b i = none := by
  have whole := fs.four_mul_ptrs
  exact if_pos (by omega)

end Geometry

/-- What a block can be to a file. -/
inductive Role where
  | data (idx : Nat)
  | single
  | double
  | inner (k : Nat)
  deriving DecidableEq

def blockOf (img : Img) (raw : RawInode) : Role → Option Nat
  | .data idx => fs.inodeReadBlock img raw idx
  | .single => nonzero (raw.block 12)
  | .double => nonzero (raw.block 13)
  | .inner k => (nonzero (raw.block 13)).bind fun b => fs.entryAt img b k

/-- The parts of an image. -/
inductive Part where
  | descriptor (g : Nat)
  | bitmap (g : Nat)
  | inode (n : Nat)
  | block (n : Nat) (role : Role)
  deriving DecidableEq

def InBlock (b x : Nat) : Prop := b * fs.blockSize ≤ x ∧ x < b * fs.blockSize + fs.blockSize

/-- The byte `x` belongs to the part; `raws` are the inodes. -/
def Holds (img : Img) (raws : Nat → RawInode) : Part → Nat → Prop
  | .descriptor g, x => fs.bgdAddr g ≤ x ∧ x < fs.bgdAddr g + DESCRIPTOR_BYTES
  | .bitmap g, x => fs.InBlock (fs.bitmapOf img g) x
  | .inode n, x => ∃ a, fs.inodeAddr img n = some a ∧ a ≤ x ∧ x < a + INODE_BYTES
  | .block n role, x => ∃ b, fs.blockOf img (raws n) role = some b ∧ fs.InBlock b x

def groups : Nat := (groupCount fs.blocksCount fs.blocksPerGroup).getD 0

def Live (files : Set Nat) : Part → Prop
  | .descriptor g => g < fs.groups ∨ ∃ n ∈ files, fs.groupOf n = g
  | .bitmap g => g < fs.groups
  | .inode n => n ∈ files
  | .block n _ => n ∈ files

def bitAt (img : Img) (g i : Nat) : Bool := testBit img (fs.bitmapOf img g * fs.blockSize + i / 8) (i % 8)

/-- No byte is in two parts and, if blocks are to be spared for new ones, no block whose
    bit is clear, as `alloc_block` numbers the bits, is in any. -/
structure Consistent (img : Img) (raws : Nat → RawInode) (files : Set Nat) (spare : Prop) : Prop where
  known : ∀ n ∈ files, 0 < n ∧ n ≤ fs.inodesCount
  apart : ∀ p q x, fs.Live files p → fs.Live files q → fs.Holds img raws p x → fs.Holds img raws q x → p = q
  free : spare → ∀ g i, g < fs.groups → i ∈ fs.groupBits g → fs.bitAt img g i = false →
    g * fs.blocksPerGroup + i < fs.blocksCount ∧
    ∀ p x, fs.Live files p → fs.InBlock (g * fs.blocksPerGroup + i) x → ¬ fs.Holds img raws p x

variable {fs} {img img' img'' : Img} {raw raw' : RawInode} {raws raws' raws'' : Nat → RawInode}
  {files : Set Nat}
variable {spare : Prop} {b c g i n x g' i' idx j m : Nat}

section Blocks

theorem inBlock_unique (first : fs.InBlock b x) (second : fs.InBlock c x) : b = c := by
  obtain ⟨low, high⟩ := first
  obtain ⟨low', high'⟩ := second
  have quotient : ∀ {d}, d * fs.blockSize ≤ x → x < d * fs.blockSize + fs.blockSize →
      x / fs.blockSize = d := fun {d} lower upper => by
    refine Nat.div_eq_of_lt_le lower ?_
    rwa [Nat.succ_mul]
  exact (quotient low high).symm.trans (quotient low' high')

theorem div_mod_place (b : Nat) (inside : i < fs.blockSize) :
    (b * fs.blockSize + i) / fs.blockSize = b ∧ (b * fs.blockSize + i) % fs.blockSize = i := by
  rw [Nat.add_comm, Nat.add_mul_div_right _ _ fs.blockSize_pos, Nat.div_eq_of_lt inside, Nat.zero_add,
    Nat.add_mul_mod_self_right]
  exact ⟨rfl, Nat.mod_eq_of_lt inside⟩

theorem inBlock_add (b : Nat) (inside : i < fs.blockSize) :
    fs.InBlock b (b * fs.blockSize + i) :=
  ⟨Nat.le_add_right _ _, Nat.add_lt_add_left inside _⟩

theorem groupBits_lt (inside : i ∈ fs.groupBits g) : i < fs.blocksPerGroup ∧ i < fs.blockSize * 8 := by
  rw [groupBits, List.mem_range'_1] at inside
  omega

theorem inBlock_bit (b : Nat) (inside : i < fs.blockSize * 8) : fs.InBlock b (b * fs.blockSize + i / 8) :=
  inBlock_add b (Nat.div_lt_of_lt_mul (by omega))

theorem div_mod_group (g : Nat) (inside : i < fs.blocksPerGroup) :
    (g * fs.blocksPerGroup + i) / fs.blocksPerGroup = g ∧ (g * fs.blocksPerGroup + i) % fs.blocksPerGroup = i := by
  rw [Nat.mul_comm, Nat.mul_add_div fs.blocksPerGroup_pos, Nat.div_eq_of_lt inside, Nat.mul_add_mod]
  exact ⟨rfl, Nat.mod_eq_of_lt inside⟩

theorem place_unique (inside : i < fs.blocksPerGroup) (inside' : i' < fs.blocksPerGroup)
    (same : g * fs.blocksPerGroup + i = g' * fs.blocksPerGroup + i') : g = g' ∧ i = i' := by
  have first := div_mod_group g inside
  rw [same, (div_mod_group g' inside').1, (div_mod_group g' inside').2] at first
  exact ⟨first.1.symm, first.2.symm⟩

theorem nonzero_of_ne (pos : b ≠ 0) : nonzero b = some b := if_neg pos

end Blocks

section Mapping

theorem entryAt_congr (same : ∀ x, fs.InBlock b x → img' x = img x) :
    fs.entryAt img' b i = fs.entryAt img b i := by
  by_cases inside : i < fs.ptrsPerBlock
  · have whole := fs.four_mul_ptrs
    rw [entryAt_eq fs img' b inside, entryAt_eq fs img b inside]
    refine congrArg nonzero (le32_congr fun j below => same _ ?_)
    rw [Nat.add_assoc]
    exact inBlock_add b (by omega)
  · rw [entryAt_outside fs img' b (by omega), entryAt_outside fs img b (by omega)]

def Role.Pointer : Role → Prop
  | .data _ => False
  | _ => True

/-- The block that the double indirect tree has at `d`. -/
def doubleAt (fs : Ext2Fs) (img : Img) (root d : Nat) : Option Nat :=
  if d < fs.ptrsPerBlock * fs.ptrsPerBlock ∧ root ≠ 0 then
    (fs.entryAt img root (d / fs.ptrsPerBlock)).bind fun l1Block =>
      fs.entryAt img l1Block (d % fs.ptrsPerBlock)
  else none

theorem inodeReadBlock_direct (below : idx < 12) :
    fs.inodeReadBlock img raw idx = nonzero (raw.block idx) := if_pos below

theorem inodeReadBlock_single (inside : j < fs.ptrsPerBlock) (used : raw.block 12 ≠ 0) :
    fs.inodeReadBlock img raw (12 + j) = fs.entryAt img (raw.block 12) j := by
  rw [inodeReadBlock, if_neg (by omega), Nat.add_sub_cancel_left]
  exact if_pos ⟨inside, used⟩

theorem inodeReadBlock_double (beyond : ¬ (j < fs.ptrsPerBlock ∧ raw.block 12 ≠ 0)) :
    fs.inodeReadBlock img raw (12 + j) = fs.doubleAt img (raw.block 13) (j - fs.ptrsPerBlock) := by
  rw [inodeReadBlock, if_neg (by omega), Nat.add_sub_cancel_left]
  exact if_neg beyond

/-- What the block of one role depends on: the fields of the inode, the entry in the
    single indirect block, and the blocks of the double indirect tree. -/
theorem blockOf_congr_of_entries {role : Role} (direct : ∀ k < 12, role = .data k → raw'.block k = raw.block k)
    (twelve : raw'.block 12 = raw.block 12) (thirteen : raw'.block 13 = raw.block 13)
    (single : ∀ j < fs.ptrsPerBlock, role = .data (12 + j) → raw.block 12 ≠ 0 →
      fs.entryAt img' (raw.block 12) j = fs.entryAt img (raw.block 12) j)
    (double : raw.block 13 ≠ 0 → ∀ x, fs.InBlock (raw.block 13) x → img' x = img x)
    (inner : ∀ k b, fs.blockOf img raw (.inner k) = some b → ∀ x, fs.InBlock b x → img' x = img x) :
    fs.blockOf img' raw' role = fs.blockOf img raw role := by
  have level1 : ∀ k, raw.block 13 ≠ 0 → fs.entryAt img' (raw.block 13) k = fs.entryAt img (raw.block 13) k :=
    fun k pos => entryAt_congr (double pos)
  cases role with
  | single => rw [blockOf, blockOf, twelve]
  | double => rw [blockOf, blockOf, thirteen]
  | inner k =>
    rw [blockOf, blockOf, thirteen, nonzero]
    split
    · rfl
    · next pos => exact level1 k pos
  | data idx =>
    show fs.inodeReadBlock img' raw' idx = fs.inodeReadBlock img raw idx
    by_cases below : idx < 12
    · rw [inodeReadBlock_direct below, inodeReadBlock_direct below, direct idx below rfl]
    · obtain ⟨j, rfl⟩ := Nat.exists_eq_add_of_le (Nat.le_of_not_lt below)
      by_cases indirect : j < fs.ptrsPerBlock ∧ raw.block 12 ≠ 0
      · rw [inodeReadBlock_single indirect.1 (twelve ▸ indirect.2),
          inodeReadBlock_single indirect.1 indirect.2, twelve]
        exact single j indirect.1 rfl indirect.2
      · rw [inodeReadBlock_double indirect, inodeReadBlock_double (twelve ▸ indirect), thirteen,
          doubleAt, doubleAt]
        split
        · next dbl =>
          rw [level1 _ dbl.2]
          cases l1 : fs.entryAt img (raw.block 13) ((j - fs.ptrsPerBlock) / fs.ptrsPerBlock) with
          | none => rfl
          | some b =>
            refine entryAt_congr (inner ((j - fs.ptrsPerBlock) / fs.ptrsPerBlock) b ?_)
            rw [blockOf, nonzero_of_ne dbl.2]
            exact l1
        · rfl

theorem blockOf_congr (fields : ∀ k < 14, raw'.block k = raw.block k)
    (same : ∀ role b, role.Pointer → fs.blockOf img raw role = some b →
      ∀ x, fs.InBlock b x → img' x = img x) (role : Role) :
    fs.blockOf img' raw' role = fs.blockOf img raw role :=
  blockOf_congr_of_entries (fun k below _ => fields k (by omega)) (fields 12 (by decide))
    (fields 13 (by decide))
    (fun _ _ _ pos => entryAt_congr (same .single _ trivial (nonzero_of_ne pos)))
    (fun pos => same .double _ trivial (nonzero_of_ne pos)) fun k b => same (.inner k) b trivial

end Mapping

section Changes

/-- A block in no part of the image, whose bit is set. -/
structure Fresh (fs : Ext2Fs) (img : Img) (raws : Nat → RawInode) (files : Set Nat) (b : Nat) : Prop where
  pos : b ≠ 0
  small : b < 2 ^ 32
  unused : ∀ p x, fs.Live files p → fs.InBlock b x → ¬ fs.Holds img raws p x
  taken : ∀ g i, g < fs.groups → i ∈ fs.groupBits g → g * fs.blocksPerGroup + i = b →
    fs.bitAt img g i = true

/-- The groups have their bitmaps and inode tables where they were. -/
def SameTables (fs : Ext2Fs) (files : Set Nat) (img img' : Img) : Prop :=
  ∀ g, fs.Live files (.descriptor g) →
    fs.bitmapOf img' g = fs.bitmapOf img g ∧ fs.tableOf img' g = fs.tableOf img g

/-- The second image and inodes extend the first: the tables and the other files are as
    they were, and file `n` has at least the blocks it had. -/
structure Grown (fs : Ext2Fs) (files : Set Nat) (n : Nat) (img : Img) (raws : Nat → RawInode)
    (img' : Img) (raws' : Nat → RawInode) : Prop where
  tables : fs.SameTables files img img'
  records : ∀ m ∈ files, m ≠ n → ∀ x, fs.Holds img raws (.inode m) x → img' x = img x
  inodes : ∀ m, m ≠ n → raws' m = raws m
  blocks : ∀ m ∈ files, m ≠ n → ∀ role,
    fs.blockOf img' (raws m) role = fs.blockOf img (raws m) role
  bytes : ∀ m ∈ files, m ≠ n → ∀ role x, fs.Holds img raws (.block m role) x → img' x = img x
  mapping : ∀ role b, fs.blockOf img (raws n) role = some b → fs.blockOf img' (raws' n) role = some b

variable (consistent : fs.Consistent img raws files spare)

include consistent

theorem inodeAddr_congr (mem : n ∈ files) (tables : fs.SameTables files img img') :
    fs.inodeAddr img' n = fs.inodeAddr img n := by
  have known := consistent.known n mem
  rw [fs.inodeAddr_eq img' known, fs.inodeAddr_eq img known, (tables _ (.inr ⟨n, mem, rfl⟩)).2]

theorem holds_congr (tables : fs.SameTables files img img')
    (blocks : ∀ m ∈ files, ∀ role, fs.blockOf img' (raws' m) role = fs.blockOf img (raws m) role)
    {p : Part} (live : fs.Live files p) : fs.Holds img' raws' p x ↔ fs.Holds img raws p x := by
  cases p with
  | descriptor g => exact Iff.rfl
  | bitmap g => rw [Holds, Holds, (tables g (.inl live)).1]
  | inode m => rw [Holds, Holds, inodeAddr_congr consistent live tables]
  | block m role => rw [Holds, Holds, blocks m live role]

omit consistent

theorem Grown.refl (fs : Ext2Fs) (files : Set Nat) (n : Nat) (img : Img) (raws : Nat → RawInode) :
    Grown fs files n img raws img raws :=
  ⟨fun _ _ => ⟨rfl, rfl⟩, fun _ _ _ _ _ => rfl, fun _ _ => rfl, fun _ _ _ _ => rfl,
    fun _ _ _ _ _ _ => rfl, fun _ _ mapped => mapped⟩

include consistent

theorem Grown.trans
    (first : Grown fs files n img raws img' raws') (second : Grown fs files n img' raws' img'' raws'') :
    Grown fs files n img raws img'' raws'' where
  tables g live :=
    ⟨(second.tables g live).1.trans (first.tables g live).1,
      (second.tables g live).2.trans (first.tables g live).2⟩
  records m mem other x held := by
    have held' : fs.Holds img' raws' (.inode m) x := by
      rwa [Holds, inodeAddr_congr consistent mem first.tables]
    exact (second.records m mem other x held').trans (first.records m mem other x held)
  inodes m other := (second.inodes m other).trans (first.inodes m other)
  blocks m mem other role := by
    have step := second.blocks m mem other role
    rw [first.inodes m other] at step
    exact step.trans (first.blocks m mem other role)
  bytes m mem other role x held := by
    have held' : fs.Holds img' raws' (.block m role) x := by
      rwa [Holds, first.inodes m other, first.blocks m mem other role]
    exact (second.bytes m mem other role x held').trans (first.bytes m mem other role x held)
  mapping role b mapped := second.mapping role b (first.mapping role b mapped)

theorem Consistent.of_same (tables : fs.SameTables files img img')
    (blocks : ∀ m ∈ files, ∀ role, fs.blockOf img' (raws' m) role = fs.blockOf img (raws m) role)
    (bits : ∀ g i, g < fs.groups → i ∈ fs.groupBits g → fs.bitAt img g i = true →
      fs.bitAt img' g i = true) : fs.Consistent img' raws' files spare := by
  have place : ∀ {p x}, fs.Live files p → fs.Holds img' raws' p x → fs.Holds img raws p x :=
    fun live => (holds_congr consistent tables blocks live).mp
  refine ⟨consistent.known, ?_, ?_⟩
  · intro p q x liveP liveQ heldP heldQ
    exact consistent.apart p q x liveP liveQ (place liveP heldP) (place liveQ heldQ)
  · intro spare g i live inside clear
    have was : fs.bitAt img g i = false := by
      by_contra set
      rw [bits g i live inside (Bool.of_not_eq_false set)] at clear
      cases clear
    obtain ⟨below, unused⟩ := consistent.free spare g i live inside was
    exact ⟨below, fun p x liveP block held => unused p x liveP block (place liveP held)⟩

omit consistent

/-- The bytes that tell nothing about where the parts are, file `n` apart. -/
def Soft (fs : Ext2Fs) (n : Nat) : Part → Nat → Prop
  | .descriptor g, x => fs.bgdAddr g + 12 ≤ x
  | .bitmap _, _ => True
  | .inode m, _ => m = n
  | .block m _, _ => m = n

theorem blockOf_spared (spared : ∀ x, img' x ≠ img x → ∀ role : Role, role.Pointer →
      ¬ fs.Holds img raws (.block m role) x) (role : Role) :
    fs.blockOf img' (raws m) role = fs.blockOf img (raws m) role := by
  refine blockOf_congr (fun _ _ => rfl) (fun role b pointer used x inside => ?_) role
  by_contra changed
  exact spared x changed role pointer ⟨b, used, inside⟩

theorem bitAt_spared (tables : fs.SameTables files img img') (live : g < fs.groups)
    (inside : i ∈ fs.groupBits g) (spared : ∀ x, img' x ≠ img x → ¬ fs.InBlock (fs.bitmapOf img g) x) :
    fs.bitAt img' g i = fs.bitAt img g i := by
  have byte : img' (fs.bitmapOf img g * fs.blockSize + i / 8) =
      img (fs.bitmapOf img g * fs.blockSize + i / 8) := by
    by_contra changed
    exact spared _ changed (inBlock_bit _ (groupBits_lt inside).2)
  rw [bitAt, bitAt, (tables g (.inl live)).1, testBit, testBit, byte]

section

variable (soft : ∀ x, img' x ≠ img x → ∀ p, fs.Live files p → fs.Holds img raws p x → fs.Soft n p x)

include soft

theorem tables_of_soft : fs.SameTables files img img' := by
  have field : ∀ g, fs.Live files (.descriptor g) → ∀ o, o + 4 ≤ 12 →
      le32 img' (fs.bgdAddr g + o) = le32 img (fs.bgdAddr g + o) := by
    intro g live o fits
    refine le32_congr fun i below => ?_
    by_contra changed
    have beyond := soft _ changed (.descriptor g) live ⟨by omega, by rw [DESCRIPTOR_BYTES]; omega⟩
    rw [Soft] at beyond
    omega
  intro g live
  have first := field g live 0 (by omega)
  rw [Nat.add_zero] at first
  exact ⟨first, field g live 8 (by omega)⟩

theorem grown_of_soft
    (mapping : ∀ role b, fs.blockOf img (raws n) role = some b → fs.blockOf img' (raws n) role = some b) :
    Grown fs files n img raws img' raws := by
  have kept : ∀ p x, fs.Live files p → fs.Holds img raws p x → ¬ fs.Soft n p x → img' x = img x := by
    intro p x live held hard
    by_contra changed
    exact hard (soft x changed p live held)
  refine ⟨tables_of_soft soft, ?_, fun _ _ => rfl, ?_, ?_, mapping⟩
  · exact fun m live other x held => kept (.inode m) x live held fun soft => other soft
  · intro m live other
    exact blockOf_spared fun x changed role _ held => other (soft x changed (.block m role) live held)
  · exact fun m live other role x held => kept (.block m role) x live held fun soft => other soft

end

theorem grown_of_confined (mem : n ∈ files)
    (confined : ∀ x, img' x ≠ img x → ∀ p, fs.Live files p → fs.Holds img raws p x →
      ∃ idx, p = .block n (.data idx)) :
    Grown fs files n img raws img' raws ∧
      (∀ m ∈ files, ∀ role, fs.blockOf img' (raws m) role = fs.blockOf img (raws m) role) ∧
      ∀ g i, g < fs.groups → i ∈ fs.groupBits g → fs.bitAt img' g i = fs.bitAt img g i := by
  have blocks : ∀ m ∈ files, ∀ role, fs.blockOf img' (raws m) role = fs.blockOf img (raws m) role := by
    intro m live
    refine blockOf_spared fun x changed role pointer held => ?_
    obtain ⟨idx, same⟩ := confined x changed (.block m role) live held
    obtain ⟨_, rfl⟩ := Part.block.inj same
    exact pointer
  have soft : ∀ x, img' x ≠ img x → ∀ p, fs.Live files p → fs.Holds img raws p x → fs.Soft n p x := by
    intro x changed p live held
    obtain ⟨idx, rfl⟩ := confined x changed p live held
    rfl
  have grown := grown_of_soft soft fun role b mapped => (blocks n mem role).trans mapped
  refine ⟨grown, blocks, fun g i live inside => ?_⟩
  refine bitAt_spared grown.tables live inside (fun x changed held => ?_)
  obtain ⟨idx, same⟩ := confined x changed (.bitmap g) live held
  cases same

theorem Fresh.of_same (fresh : fs.Fresh img raws files b) (consistent : fs.Consistent img raws files spare)
    (tables : fs.SameTables files img img')
    (blocks : ∀ m ∈ files, ∀ role, fs.blockOf img' (raws' m) role = fs.blockOf img (raws m) role)
    (bits : ∀ g i, g < fs.groups → i ∈ fs.groupBits g → fs.bitAt img g i = true →
      fs.bitAt img' g i = true) : fs.Fresh img' raws' files b :=
  ⟨fresh.pos, fresh.small,
    fun p x live inside held =>
      fresh.unused p x live inside ((holds_congr consistent tables blocks live).mp held),
    fun g i live inside same => bits g i live inside (fresh.taken g i live inside same)⟩

theorem Consistent.link (consistent : fs.Consistent img raws files spare) (n : Nat) (role : Role)
    (fresh : fs.Fresh img raws files b) (tables : fs.SameTables files img img')
    (bits : ∀ g i, g < fs.groups → i ∈ fs.groupBits g → fs.bitAt img' g i = fs.bitAt img g i)
    (linked : fs.blockOf img' (raws' n) role = some b)
    (others : ∀ m ∈ files, ∀ role', Part.block m role' ≠ .block n role →
      fs.blockOf img' (raws' m) role' = fs.blockOf img (raws m) role') :
    fs.Consistent img' raws' files spare := by
  have place : ∀ p x, fs.Live files p → fs.Holds img' raws' p x →
      fs.Holds img raws p x ∨ p = .block n role ∧ fs.InBlock b x := by
    intro p x live held
    by_cases here : p = .block n role
    · subst here
      obtain ⟨c, mapped, inside⟩ := held
      rw [linked, Option.some.injEq] at mapped
      exact .inr ⟨rfl, mapped ▸ inside⟩
    · refine .inl ?_
      cases p with
      | descriptor g => exact held
      | bitmap g => rwa [Holds, ← (tables g (.inl live)).1]
      | inode m => rwa [Holds, ← inodeAddr_congr consistent live tables]
      | block m role' => rwa [Holds, ← others m live role' here]
  refine ⟨consistent.known, ?_, ?_⟩
  · intro p q x liveP liveQ heldP heldQ
    obtain oldP | ⟨newP, inP⟩ := place p x liveP heldP
    · obtain oldQ | ⟨_, inQ⟩ := place q x liveQ heldQ
      · exact consistent.apart p q x liveP liveQ oldP oldQ
      · exact absurd oldP (fresh.unused p x liveP inQ)
    · obtain oldQ | ⟨newQ, _⟩ := place q x liveQ heldQ
      · exact absurd oldQ (fresh.unused q x liveQ inP)
      · exact newP.trans newQ.symm
  · intro spare g i live inside clear
    rw [bits g i live inside] at clear
    obtain ⟨below, unused⟩ := consistent.free spare g i live inside clear
    refine ⟨below, fun p x liveP block held => ?_⟩
    obtain old | ⟨_, inB⟩ := place p x liveP held
    · exact unused p x liveP block old
    · rw [fresh.taken g i live inside (inBlock_unique block inB)] at clear
      cases clear

end Changes

end Ext2Fs

end Zenus.Fs
