import Zenus.Fs.Ext2Write

/-! # What an ext2 read returns

A read of a file without holes returns the bytes of the file, as many as are asked for
and there are.
-/

namespace Zenus.Fs

open Lib.Image List Option Nat

namespace Ext2Fs

variable {fs : Ext2Fs} {img img' : Img} {raw : RawInode} {n offset stop len b : Nat}

def onDisk (fs : Ext2Fs) (img : Img) (n : Nat) : RawInode := (fs.readInodeRaw img n).getD fun _ => 0

theorem readInodeRaw_eq (known : 0 < n ∧ n ≤ fs.inodesCount) :
    fs.readInodeRaw img n = some (fs.onDisk img n) := by
  rw [onDisk, readInodeRaw, fs.inodeAddr_eq img known, map_some, getD_some]

def Dense (fs : Ext2Fs) (img : Img) (raw : RawInode) : Prop :=
  ∀ pos < raw.sizeLow, (fs.byteAt img raw pos).isSome

/-- The bytes of a file from `offset` on. -/
def bytesFrom (fs : Ext2Fs) (img : Img) (raw : RawInode) (offset count : Nat) : List UInt8 :=
  (List.range count).map fun i => (fs.byteAt img raw (offset + i)).getD 0

theorem bytesFrom_add (c k : Nat) : fs.bytesFrom img raw offset (c + k) =
    fs.bytesFrom img raw offset c ++ fs.bytesFrom img raw (offset + c) k := by
  rw [bytesFrom, range_add, map_append, List.map_map]
  simp only [bytesFrom, Function.comp_def, add_assoc]

theorem readPart_bytes (dense : ∀ pos < stop, (fs.byteAt img raw pos).isSome) (nonempty : offset < stop)
    (reach : offset < b * fs.blockSize + fs.blockSize) (begun : b * fs.blockSize < stop)
    (fits : stop ≤ offset + len) :
    fs.readPart img raw offset stop len b (fs.bytesFrom img raw offset (b * fs.blockSize - offset)) =
      some (fs.bytesFrom img raw offset (min stop (b * fs.blockSize + fs.blockSize) - offset)) := by
  have place : ∀ i, offset - b * fs.blockSize + i < fs.blockSize →
      (offset + (b * fs.blockSize - offset) + i) / fs.blockSize = b ∧
      (offset + (b * fs.blockSize - offset) + i) % fs.blockSize = offset - b * fs.blockSize + i := by
    intro i inside
    have split : offset + (b * fs.blockSize - offset) + i =
        b * fs.blockSize + (offset - b * fs.blockSize + i) := by omega
    rw [split]
    exact div_mod_place b inside
  have pos := fs.blockSize_pos
  obtain ⟨v, here⟩ := isSome_iff_exists.mp (dense (offset + (b * fs.blockSize - offset)) (by omega))
  obtain ⟨phys, mapped, _⟩ := map_eq_some_iff.mp here
  have first := (place 0 (by omega)).1
  rw [add_zero] at first
  rw [first] at mapped
  rw [readPart, mapped, map_some]
  dsimp only
  have length : (fs.bytesFrom img raw offset (b * fs.blockSize - offset)).length = b * fs.blockSize - offset := by
    rw [bytesFrom, length_map, length_range]
  have count : min (min (stop - b * fs.blockSize) fs.blockSize - (offset - b * fs.blockSize))
      (len - (fs.bytesFrom img raw offset (b * fs.blockSize - offset)).length) =
      min stop (b * fs.blockSize + fs.blockSize) - offset - (b * fs.blockSize - offset) := by
    omega
  obtain ⟨k, total⟩ : ∃ k, min stop (b * fs.blockSize + fs.blockSize) - offset =
      b * fs.blockSize - offset + k := Nat.exists_eq_add_of_le (by omega)
  rw [count, total, Nat.add_sub_cancel_left, bytesFrom_add]
  congr 2
  refine map_congr_left fun i listed => ?_
  rw [mem_range] at listed
  obtain ⟨block, rest⟩ := place i (by omega)
  rw [byteAt_of_block (block.symm ▸ mapped), rest, getD_some, readBlockData, blockAddr_eq]
  rfl

theorem readParts_bytes (dense : ∀ pos < stop, (fs.byteAt img raw pos).isSome) (nonempty : offset < stop)
    (len : Nat) (fits : stop ≤ offset + len) (m : Nat) (reach : offset < b * fs.blockSize + fs.blockSize)
    (begun : ∀ j < b + m, j * fs.blockSize < stop) :
    (List.range' b m).foldlM (fun done b => fs.readPart img raw offset stop len b done)
        (fs.bytesFrom img raw offset (min stop (b * fs.blockSize) - offset)) =
      some (fs.bytesFrom img raw offset (min stop ((b + m) * fs.blockSize) - offset)) := by
  induction m generalizing b with
  | zero => rfl
  | succ m ih =>
    have here := begun b (by omega)
    have next : (b + 1) * fs.blockSize = b * fs.blockSize + fs.blockSize := succ_mul ..
    rw [List.range'_succ, foldlM_cons, min_eq_right (le_of_lt here),
      readPart_bytes dense nonempty reach here fits, ← next]
    have rest := ih (b := b + 1) (by omega) fun j below => begun j (by omega)
    rw [add_right_comm] at rest
    exact rest

theorem read_dense (known : 0 < n ∧ n ≤ fs.inodesCount) (dense : fs.Dense img (fs.onDisk img n)) :
    fs.read img n offset len = some (fs.bytesFrom img (fs.onDisk img n) offset
      (min len ((fs.onDisk img n).sizeLow - offset))) := by
  rw [read, readInodeRaw_eq known, bind_some]
  dsimp only
  split
  · next empty =>
    have none : min len ((fs.onDisk img n).sizeLow - offset) = 0 := by omega
    rw [none]
    rfl
  · next some =>
    have pos := fs.blockSize_pos
    obtain ⟨stop, stops⟩ : ∃ stop, stop = min (offset + len) (fs.onDisk img n).sizeLow := ⟨_, rfl⟩
    rw [← stops]
    have nonempty : offset < stop := by omega
    have first := div_mul_le_self offset fs.blockSize
    have reach := lt_div_mul_add pos (a := offset)
    have last : ∀ j < (stop + fs.blockSize - 1) / fs.blockSize, j * fs.blockSize < stop := by
      intro j below
      have le := (le_div_iff_mul_le pos).mp below
      rw [succ_mul] at le
      omega
    have ends : stop ≤ (stop + fs.blockSize - 1) / fs.blockSize * fs.blockSize := by
      have above := lt_div_mul_add pos (a := stop + fs.blockSize - 1)
      omega
    have ordered : offset / fs.blockSize ≤ (stop + fs.blockSize - 1) / fs.blockSize :=
      Nat.div_le_div_right (by omega)
    have parts := readParts_bytes (fun p below => dense p (by omega)) nonempty len (by omega)
      ((stop + fs.blockSize - 1) / fs.blockSize - offset / fs.blockSize) reach
      (fun j below => last j (by omega))
    have begins : min stop (offset / fs.blockSize * fs.blockSize) - offset = 0 := by omega
    have count : stop - offset = min len ((fs.onDisk img n).sizeLow - offset) := by omega
    rw [begins, Nat.add_sub_cancel' ordered, Nat.min_eq_left ends, count] at parts
    exact parts

theorem read_congr (known : 0 < n ∧ n ≤ fs.inodesCount)
    (size : (fs.onDisk img' n).sizeLow = (fs.onDisk img n).sizeLow)
    (mapping : ∀ idx, fs.inodeReadBlock img' (fs.onDisk img' n) idx = fs.inodeReadBlock img (fs.onDisk img n) idx)
    (bytes : ∀ idx b x, fs.inodeReadBlock img (fs.onDisk img n) idx = some b → fs.InBlock b x →
      img' x = img x) : fs.read img' n offset len = fs.read img n offset len := by
  have part : ∀ stop b done, fs.readPart img' (fs.onDisk img' n) offset stop len b done =
      fs.readPart img (fs.onDisk img n) offset stop len b done := by
    intro stop b done
    rw [readPart, readPart, mapping]
    cases mapped : fs.inodeReadBlock img (fs.onDisk img n) b with
    | none => rfl
    | some phys =>
      rw [map_some, map_some]
      dsimp only
      congr 2
      refine map_congr_left fun i listed => ?_
      rw [mem_range] at listed
      rw [readBlockData, readBlockData, blockAddr_eq]
      exact bytes b phys _ mapped (inBlock_add phys (by omega))
  rw [read, read, readInodeRaw_eq known, readInodeRaw_eq known, bind_some, bind_some]
  rw [size]
  simp only [part]

end Ext2Fs

end Zenus.Fs
