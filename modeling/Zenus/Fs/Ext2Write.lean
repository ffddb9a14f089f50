import Zenus.Fs.Ext2Alloc

/-! # The loop of an ext2 write

Every round of the loop writes one piece of the buffer into one block.  A round that
begins below the end of the file keeps the rest of its block; one that begins at the
end or beyond it fills the rest with zeros.  Only the first round can begin inside a
block, so that zeros reach a byte of the file only if the write begins where the file
ends.
-/

namespace Zenus.Fs

open Lib.Image Lib.Word Option Nat Function

namespace Ext2Fs

variable {fs : Ext2Fs} {img img' data img'' : Img} {raw raw' raw'' : RawInode} {raws raws' : Nat → RawInode}
variable {files : Set Nat} {spare : Prop} {n size offset w w' b pos idx logical p q k : Nat} {buf : List UInt8}

/-- The byte of a file at a position, where it has a block. -/
def byteAt (fs : Ext2Fs) (img : Img) (raw : RawInode) (pos : Nat) : Option UInt8 :=
  (fs.inodeReadBlock img raw (pos / fs.blockSize)).map fun b => img (b * fs.blockSize + pos % fs.blockSize)

theorem mod_lt_blockSize (fs : Ext2Fs) (pos : Nat) : pos % fs.blockSize < fs.blockSize :=
  mod_lt _ fs.blockSize_pos

theorem byteAt_of_block (mapped : fs.inodeReadBlock img raw (pos / fs.blockSize) = some b) :
    fs.byteAt img raw pos = some (img (b * fs.blockSize + pos % fs.blockSize)) := by
  rw [byteAt, mapped, map_some]

theorem Extended.byteAt {v : UInt8} (extended : Extended fs files n img raws img' raws')
    (was : fs.byteAt img (raws n) pos = some v) : fs.byteAt img' (raws' n) pos = some v := by
  obtain ⟨b, mapped, rfl⟩ := map_eq_some_iff.mp was
  rw [byteAt_of_block (extended.mapping (.data _) b mapped)]
  exact congrArg some (extended.data _ b _ mapped (inBlock_add b (fs.mod_lt_blockSize pos)))

theorem overwrite_data (consistent : fs.Consistent img raws files spare)
    (mem : n ∈ files) (mapped : fs.inodeReadBlock img (raws n) idx = some b)
    (write : img' = fs.writeBlockData img b data) :
    Grown fs files n img raws img' raws ∧ fs.Consistent img' raws files spare ∧
      ∀ pos, fs.byteAt img' (raws n) pos =
        if pos / fs.blockSize = idx then some (data (pos % fs.blockSize)) else fs.byteAt img (raws n) pos := by
  have here : ∀ x, img' x ≠ img x → ∀ p, fs.Live files p → fs.Holds img raws p x → p = .block n (.data idx) := by
    intro x changed p live held
    by_contra other
    refine changed ?_
    rw [write, writeBlockData, blockAddr_eq]
    refine patch_outside ?_
    by_contra within
    exact other (consistent.apart p (.block n (.data idx)) x live mem held ⟨b, mapped, by omega, by omega⟩)
  obtain ⟨grown, blocks, bits⟩ := grown_of_confined mem fun x changed p live held =>
    ⟨idx, here x changed p live held⟩
  refine ⟨grown, consistent.of_same grown.tables blocks fun g i live inside set =>
    (bits g i live inside).trans set, fun pos => ?_⟩
  have mapping : ∀ k, fs.inodeReadBlock img' (raws n) k = fs.inodeReadBlock img (raws n) k :=
    fun k => blocks n mem (.data k)
  have small := fs.mod_lt_blockSize pos
  split
  · next same =>
    rw [byteAt_of_block ((mapping _).trans (same ▸ mapped)), write, writeBlockData, blockAddr_eq,
      patch_add small]
  · next other =>
    rw [byteAt, byteAt, mapping]
    cases block : fs.inodeReadBlock img (raws n) (pos / fs.blockSize) with
    | none => rfl
    | some c =>
      rw [map_some, map_some]
      congr 1
      by_contra changed
      have same := here _ changed (.block n (.data (pos / fs.blockSize))) mem
        ⟨c, block, inBlock_add c small⟩
      exact other (Role.data.inj (Part.block.inj same).2)

theorem eq_of_writeLogicalBlock (place : writeLogicalBlock offset w fs.blockSize = some logical) :
    logical = (offset + w) / fs.blockSize := by
  rw [writeLogicalBlock, if_neg (ne_of_gt fs.blockSize_pos)] at place
  obtain ⟨pos, sum, place⟩ := bind_eq_some_iff.mp place
  cases eq_of_checkedAdd sum
  split at place
  · simp at place
  · exact (some.inj place).symm

theorem mod_of_same_block (same : p / fs.blockSize = q / fs.blockSize) :
    p % fs.blockSize + q = q % fs.blockSize + p := by
  have first := div_add_mod p fs.blockSize
  have second := div_add_mod q fs.blockSize
  rw [same] at first
  omega

theorem same_block (above : q ≤ p) (below : p < q + (fs.blockSize - q % fs.blockSize)) :
    p / fs.blockSize = q / fs.blockSize := by
  have whole := div_add_mod q fs.blockSize
  refine Nat.div_eq_of_lt_le ?_ ?_
  · rw [Nat.mul_comm]
    omega
  · rw [succ_mul, Nat.mul_comm]
    omega

/-- What one round does: `k` bytes of the buffer are written from position `offset + w` on. -/
structure Round (fs : Ext2Fs) (files : Set Nat) (spare : Prop) (n : Nat) (img : Img) (raws : Nat → RawInode) (img' : Img)
    (raw' : RawInode) (size offset : Nat) (buf : List UInt8) (w k : Nat) : Prop where
  pos : 0 < k
  fits : w + k ≤ buf.length
  aligned : (offset + w + k) % fs.blockSize = 0 ∨ w + k = buf.length
  grown : Grown fs files n img raws img' (update raws n raw')
  consistent : fs.Consistent img' (update raws n raw') files spare
  kept : raw'.sizeLow = (raws n).sizeLow
  written : ∀ p, offset + w ≤ p → p < offset + w + k →
    fs.byteAt img' raw' p = some (buf.getD (p - offset) 0)
  rest : ∀ p v, p < offset + w ∨ offset + w + k ≤ p → fs.byteAt img (raws n) p = some v →
    fs.byteAt img' raw' p =
      some (if p / fs.blockSize = (offset + w) / fs.blockSize ∧ size ≤ offset + w then 0 else v)

theorem writeChunk_round (consistent : fs.Consistent img raws files spare) (mem : n ∈ files)
    (need : fs.inodeReadBlock img (raws n) ((offset + w) / fs.blockSize) = none → spare)
    (below : w < buf.length) (done : fs.writeChunk img (raws n) size offset buf w = (some (raw', w'), img')) :
    ∃ k, w' = w + k ∧ Round fs files spare n img raws img' raw' size offset buf w k := by
  unfold writeChunk at done
  split at done
  · next pos logical sum place =>
    cases eq_of_checkedAdd sum
    cases eq_of_writeLogicalBlock place
    split at done
    · simp at done
    · next target img1 chosen =>
      obtain ⟨raw1, b⟩ := target
      obtain ⟨result, image⟩ := Prod.mk.inj done
      cases result
      obtain ⟨extended, consistent1, mapped⟩ := blockForWrite_spec consistent mem need chosen
      have mapped' : fs.inodeReadBlock img1 (update raws n raw1 n) ((offset + w) / fs.blockSize) = some b := by
        rwa [update_self]
      obtain ⟨grown, consistent2, bytes⟩ := overwrite_data consistent1 mem mapped' image.symm
      rw [update_self] at bytes
      have off := fs.mod_lt_blockSize (offset + w)
      refine ⟨_, rfl, ?_, ?_, ?_, extended.toGrown.trans consistent grown, consistent2, ?_, ?_, ?_⟩
      · omega
      · omega
      · refine (le_total (fs.blockSize - (offset + w) % fs.blockSize) (buf.length - w)).imp ?_ ?_
        · intro whole
          have split := div_add_mod (offset + w) fs.blockSize
          have next : offset + w + (fs.blockSize - (offset + w) % fs.blockSize) =
              fs.blockSize * ((offset + w) / fs.blockSize + 1) := by
            rw [mul_succ]
            omega
          rw [min_eq_left whole, next, mul_mod_right]
        · intro last
          omega
      · have size := extended.size
        rwa [update_self] at size
      · intro p above below
        have same : p / fs.blockSize = (offset + w) / fs.blockSize := same_block above (by omega)
        have place := mod_of_same_block same
        have index : w + (p % fs.blockSize - (offset + w) % fs.blockSize) = p - offset := by omega
        rw [bytes, if_pos same, patch_inside (by omega) (by omega), index]
      · intro p v outside was
        have was1 := extended.byteAt was
        rw [update_self] at was1
        rw [bytes]
        split
        · next same =>
          have place := mod_of_same_block same
          have inB := fs.mod_lt_blockSize p
          rw [patch_outside (by omega)]
          by_cases within : offset + w < size
          · rw [if_pos ⟨within, by omega⟩, if_neg (by omega), readBlockData, blockAddr_eq]
            exact (byteAt_of_block (same ▸ mapped)).symm.trans was1
          · rw [if_neg (fun both => within both.1), if_pos ⟨same, by omega⟩]
        · next other => rw [if_neg (fun both => other both.1), was1]
  · simp at done

/-- Where the loop stands after `w` bytes: what the file had is there, except for what
    was written, and for the zeros before a write that began where the file ended. -/
structure Progress (fs : Ext2Fs) (files : Set Nat) (spare : Prop) (n : Nat) (img : Img) (raws : Nat → RawInode)
    (offset : Nat) (buf : List UInt8) (img' : Img) (raw' : RawInode) (w : Nat) : Prop where
  grown : Grown fs files n img raws img' (update raws n raw')
  consistent : fs.Consistent img' (update raws n raw') files spare
  kept : raw'.sizeLow = (raws n).sizeLow
  fits : w ≤ buf.length
  aligned : w = 0 ∨ (offset + w) % fs.blockSize = 0 ∨ w = buf.length
  written : ∀ p, offset ≤ p → p < offset + w → fs.byteAt img' raw' p = some (buf.getD (p - offset) 0)
  rest : ∀ p v, p < (raws n).sizeLow → p < offset ∨ offset + w ≤ p → fs.byteAt img (raws n) p = some v →
    fs.byteAt img' raw' p = some (if 0 < w ∧ offset = (raws n).sizeLow ∧
      p / fs.blockSize = offset / fs.blockSize then 0 else v)

theorem Progress.start (consistent : fs.Consistent img raws files spare) (offset : Nat) (buf : List UInt8) :
    Progress fs files spare n img raws offset buf img (raws n) 0 := by
  refine ⟨?_, ?_, rfl, zero_le _, .inl rfl, fun p above below => absurd below (by omega), ?_⟩
  · rw [update_eq_self]
    exact Grown.refl ..
  · rwa [update_eq_self]
  · intro p v _ _ was
    rw [was, if_neg (fun both => absurd both.1 (by omega))]

theorem Progress.round (start : fs.Consistent img raws files spare)
    (within : offset ≤ (raws n).sizeLow) (below : w < buf.length)
    (progress : Progress fs files spare n img raws offset buf img' raw' w)
    (round : Round fs files spare n img' (update raws n raw') img'' raw'' (raws n).sizeLow offset buf w k) :
    Progress fs files spare n img raws offset buf img'' raw'' (w + k) := by
  have twice : update (update raws n raw') n raw'' = update raws n raw'' := Function.update_idem ..
  have grown := progress.grown.trans start round.grown
  have consistent := round.consistent
  have rest := round.rest
  have kept := round.kept
  rw [twice] at grown consistent
  rw [update_self] at rest kept
  -- only the first round can begin inside a block
  have boundary : ∀ p, p < offset + w → p / fs.blockSize = (offset + w) / fs.blockSize → w = 0 := by
    intro p before same
    obtain zero | aligned | last := progress.aligned
    · exact zero
    · have place := mod_of_same_block same
      omega
    · omega
  refine ⟨grown, consistent, kept.trans progress.kept, round.fits, .inr ?_, ?_, ?_⟩
  · rw [← add_assoc]
    exact round.aligned
  · intro p above belowP
    by_cases new : offset + w ≤ p
    · exact round.written p new (by omega)
    · rw [rest p _ (by omega) (progress.written p above (by omega)), if_neg]
      rintro ⟨same, _⟩
      have zero := boundary p (by omega) same
      omega
  · intro p v old outside was
    have before := progress.rest p v old (by omega) was
    rw [rest p _ (by omega) before]
    congr 1
    have pos := round.pos
    by_cases zeros : p / fs.blockSize = (offset + w) / fs.blockSize ∧ (raws n).sizeLow ≤ offset + w
    · have zero := boundary p (by omega) zeros.1
      subst zero
      rw [if_pos zeros, if_pos ⟨by omega, by omega, zeros.1⟩]
    · rw [if_neg zeros]
      by_cases first : w = 0
      · subst first
        rw [if_neg (fun all => absurd all.1 (by omega)), if_neg]
        rintro ⟨_, ends, same⟩
        exact zeros ⟨same, by omega⟩
      · congr 1
        exact propext ⟨fun all => ⟨by omega, all.2⟩, fun all => ⟨by omega, all.2⟩⟩

/-- The write reaches a block that the file does not have. -/
def NeedsBlock (fs : Ext2Fs) (img : Img) (raw : RawInode) (offset : Nat) (buf : List UInt8) : Prop :=
  ∃ p, offset ≤ p ∧ p < offset + buf.length ∧ fs.inodeReadBlock img raw (p / fs.blockSize) = none

theorem Grown.unmapped (grown : Grown fs files n img raws img' raws')
    (vacant : fs.inodeReadBlock img' (raws' n) idx = none) : fs.inodeReadBlock img (raws n) idx = none := by
  by_contra mapped
  obtain ⟨b, was⟩ := ne_none_iff_exists'.mp mapped
  cases vacant.symm.trans (grown.mapping (.data idx) b was)

theorem Progress.ended
    (progress : Progress fs files spare n img raws offset buf img' raw' w) (all : ¬ w < buf.length)
    (done : (some (raw', w), img') = (some (raw'', w'), img'')) :
    w' = buf.length ∧ Progress fs files spare n img raws offset buf img'' raw'' buf.length := by
  cases done
  have full : w = buf.length := le_antisymm progress.fits (by omega)
  exact ⟨full, full ▸ progress⟩

theorem writeLoop_progress (start : fs.Consistent img raws files spare) (mem : n ∈ files)
    (need : NeedsBlock fs img (raws n) offset buf → spare) (within : offset ≤ (raws n).sizeLow) (rounds : Nat)
    (progress : Progress fs files spare n img raws offset buf img' raw' w)
    (done : fs.writeLoop (raws n).sizeLow offset buf rounds img' raw' w = (some (raw'', w'), img'')) :
    w' = buf.length ∧ Progress fs files spare n img raws offset buf img'' raw'' buf.length := by
  induction rounds generalizing img' raw' w with
  | zero =>
    unfold writeLoop at done
    split at done
    · simp at done
    · next all => exact progress.ended all done
  | succ rounds ih =>
    unfold writeLoop at done
    split at done
    · next below =>
      dsimp only at done
      split at done
      · simp at done
      · next new img1 chunk =>
        obtain ⟨raw1, w1⟩ := new
        have chunk' : fs.writeChunk img' (update raws n raw' n) (raws n).sizeLow offset buf w =
            (some (raw1, w1), img1) := by rwa [update_self]
        have vacant : fs.inodeReadBlock img' (update raws n raw' n) ((offset + w) / fs.blockSize) = none →
            spare := fun vacant => need ⟨offset + w, by omega, by omega, progress.grown.unmapped vacant⟩
        obtain ⟨k, rfl, round⟩ := writeChunk_round progress.consistent mem vacant below chunk'
        exact ih (progress.round start within below round) done
    · next all => exact progress.ended all done

end Ext2Fs

end Zenus.Fs
