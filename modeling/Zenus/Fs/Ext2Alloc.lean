import Zenus.Fs.Ext2Layout

/-! # Giving a file a new block

A block whose bit was clear is handed out with its bit set, zeroed if it becomes an
indirect block, and linked into the file that asked for it.  Each of these steps keeps
the image consistent, the other files as they are, and the data the file has already.
-/

namespace Zenus.Fs

open Lib.Image Option List

namespace Ext2Fs

variable {fs : Ext2Fs} {img img' img'' data zeroed : Img} {raw raw' : RawInode}
  {raws raws' raws'' : Nat → RawInode}
variable {files : Set Nat} {spare : Prop} {b c g i idx n x v g' i' j k size pos : Nat}

/-- The file has grown, and its data is as it was. -/
structure Extended (fs : Ext2Fs) (files : Set Nat) (n : Nat) (img : Img) (raws : Nat → RawInode)
    (img' : Img) (raws' : Nat → RawInode) : Prop extends Grown fs files n img raws img' raws' where
  data : ∀ idx b x, fs.inodeReadBlock img (raws n) idx = some b → fs.InBlock b x → img' x = img x
  size : (raws' n).sizeLow = (raws n).sizeLow

theorem Extended.refl (fs : Ext2Fs) (files : Set Nat) (n : Nat) (img : Img) (raws : Nat → RawInode) :
    Extended fs files n img raws img raws :=
  ⟨Grown.refl fs files n img raws, fun _ _ _ _ _ => rfl, rfl⟩

theorem Extended.trans (consistent : fs.Consistent img raws files spare)
    (first : Extended fs files n img raws img' raws') (second : Extended fs files n img' raws' img'' raws'') :
    Extended fs files n img raws img'' raws'' :=
  ⟨first.toGrown.trans consistent second.toGrown, fun idx b x mapped inside =>
    (second.data idx b x (first.mapping (.data idx) b mapped) inside).trans
      (first.data idx b x mapped inside), second.size.trans first.size⟩

section Alloc

/-- The image with a bit of a group set, and its counter of free blocks at `v`. -/
def marked (fs : Ext2Fs) (img : Img) (g i v : Nat) : Img :=
  put16 (setBit img (fs.bitmapOf img g * fs.blockSize + i / 8) (i % 8)) (fs.bgdAddr g + 12) v

theorem allocIn_eq (done : fs.allocIn img g = some (b, img')) :
    ∃ i ∈ fs.groupBits g, fs.bitAt img g i = false ∧ b = (g * fs.blocksPerGroup + i) % 2 ^ 32 ∧
      ∃ v, img' = fs.marked img g i v := by
  have bitmap : blockBitmap (view img (fs.bgdAddr g)) = fs.bitmapOf img g := by
    rw [blockBitmap, le32_view, Nat.add_zero, bitmapOf]
  rw [allocIn, readBlockBitmap, readBgdt_eq, map_some, bind_some, bitmap, map_eq_some_iff] at done
  obtain ⟨i, found, same⟩ := done
  have clear := find?_some found
  have inside := mem_of_find?_eq_some found
  rw [readBlockData, blockAddr_eq] at clear same
  rw [writeBlockBitmap, readBgdt_eq] at same
  dsimp only at same
  rw [bitmap, writeBlockData, blockAddr_eq, readBgdt_eq] at same
  dsimp only at same
  obtain ⟨number, image⟩ := Prod.mk.inj same
  have bitFits : i / 8 + 1 ≤ fs.blockSize := by
    have below := (groupBits_lt inside).2
    omega
  refine ⟨i, inside, ?_, number.symm, ?_⟩
  · exact Bool.not_eq_eq_eq_not.mp clear
  · rw [setBit, patch_patch_view bitFits, writeBgdt, put16, patch_patch_view (by decide)] at image
    exact ⟨_, image.symm⟩

theorem allocBlock_some (done : fs.allocBlock img = some (b, img')) :
    ∃ g i v, g < fs.groups ∧ i ∈ fs.groupBits g ∧ fs.bitAt img g i = false ∧
      b = (g * fs.blocksPerGroup + i) % 2 ^ 32 ∧ img' = fs.marked img g i v := by
  obtain ⟨groups, counted, done⟩ := bind_eq_some_iff.mp done
  obtain ⟨g, listed, found⟩ := exists_of_findSome?_eq_some done
  obtain ⟨i, inside, clear, number, v, marked⟩ := allocIn_eq found
  refine ⟨g, i, v, ?_, inside, clear, number, marked⟩
  rw [Ext2Fs.groups, counted]
  exact mem_range.mp listed

section

variable (consistent : fs.Consistent img raws files spare)

include consistent

section

variable (live : g < fs.groups) (inside : i ∈ fs.groupBits g)

include live inside

theorem marked_parts (changed : fs.marked img g i v x ≠ img x) :
    ∀ p, fs.Live files p → fs.Holds img raws p x →
      p = .bitmap g ∨ p = .descriptor g ∧ fs.bgdAddr g + 12 ≤ x := by
  intro p liveP held
  by_cases counter : fs.bgdAddr g + 12 ≤ x ∧ x < fs.bgdAddr g + 12 + 2
  · refine .inr ⟨consistent.apart p (.descriptor g) x liveP (.inl live) held ⟨by omega, ?_⟩, counter.1⟩
    rw [DESCRIPTOR_BYTES]
    omega
  · rw [marked, put16, patch_outside (by omega)] at changed
    by_cases bit : x = fs.bitmapOf img g * fs.blockSize + i / 8
    · subst bit
      exact .inl (consistent.apart p (.bitmap g) _ liveP live held (inBlock_bit _ (groupBits_lt inside).2))
    · exact absurd (patch_outside (by omega)) changed

theorem soft_marked (n : Nat) :
    ∀ x, fs.marked img g i v x ≠ img x → ∀ p, fs.Live files p → fs.Holds img raws p x → fs.Soft n p x := by
  intro x changed p liveP held
  obtain rfl | ⟨rfl, above⟩ := marked_parts consistent live inside changed p liveP held
  · trivial
  · exact above

theorem bitAt_marked (live' : g' < fs.groups) (inside' : i' < fs.blockSize * 8) :
    fs.bitAt (fs.marked img g i v) g' i' = (fs.bitAt img g' i' || decide (g' = g ∧ i' = i)) := by
  have tables := tables_of_soft (soft_marked consistent live inside (v := v) 0)
  -- the byte of the bit is not in the descriptor
  have apart : ¬ (fs.bgdAddr g + 12 ≤ fs.bitmapOf img g' * fs.blockSize + i' / 8 ∧
      fs.bitmapOf img g' * fs.blockSize + i' / 8 < fs.bgdAddr g + 12 + 2) := by
    intro within
    have same := consistent.apart (.bitmap g') (.descriptor g) _ live' (.inl live)
      (inBlock_bit _ inside') ⟨by omega, by rw [DESCRIPTOR_BYTES]; omega⟩
    cases same
  rw [bitAt, (tables g' (.inl live')).1, testBit, marked, put16, patch_outside (by omega)]
  refine (testBit_setBit (Nat.mod_lt _ (by decide))).trans (congrArg _ (decide_eq_decide.mpr ⟨?_, ?_⟩))
  · rintro ⟨byte, bit⟩
    have group := Part.bitmap.inj (consistent.apart (.bitmap g') (.bitmap g) _ live' live
      (inBlock_bit _ inside') (by rw [byte]; exact inBlock_bit _ (groupBits_lt inside).2))
    rw [group] at byte
    omega
  · rintro ⟨rfl, rfl⟩
    exact ⟨rfl, rfl⟩

end

theorem allocBlock_spec (need : spare) (mem : n ∈ files) (done : fs.allocBlock img = some (b, img')) :
    Extended fs files n img raws img' raws ∧ fs.Consistent img' raws files spare ∧
      (∀ role, fs.blockOf img' (raws n) role = fs.blockOf img (raws n) role) ∧
      fs.Fresh img' raws files b ∧
      ∀ c, fs.Fresh img raws files c → fs.Fresh img' raws files c ∧ c ≠ b := by
  obtain ⟨g, i, v, live, inside, clear, number, rfl⟩ := allocBlock_some done
  obtain ⟨below, unused⟩ := consistent.free need g i live inside clear
  rw [Nat.mod_eq_of_lt (Nat.lt_trans below fs.blocksCount_lt)] at number
  subst number
  have blocks : ∀ m ∈ files, ∀ role,
      fs.blockOf (fs.marked img g i v) (raws m) role = fs.blockOf img (raws m) role := by
    intro m memM
    refine blockOf_spared fun x changed role _ held => ?_
    obtain same | ⟨same, _⟩ := marked_parts consistent live inside changed (.block m role) memM held
    · cases same
    · cases same
  have grown := grown_of_soft (soft_marked consistent live inside n) fun role b mapped =>
    (blocks n mem role).trans mapped
  have kept : ∀ g' i', g' < fs.groups → i' ∈ fs.groupBits g' → fs.bitAt img g' i' = true →
      fs.bitAt (fs.marked img g i v) g' i' = true :=
    fun g' i' live' inside' set => by
      rw [bitAt_marked consistent live inside live' (groupBits_lt inside').2, set, Bool.true_or]
  refine ⟨⟨grown, ?_, rfl⟩, consistent.of_same grown.tables blocks kept, blocks n mem, ⟨?_, ?_, ?_, ?_⟩, ?_⟩
  · intro idx b x mapped inB
    by_contra changed
    obtain same | ⟨same, _⟩ := marked_parts consistent live inside changed (.block n (.data idx)) mem
      ⟨b, mapped, inB⟩
    · cases same
    · cases same
  · -- the search starts at bit 2 of the first group
    rw [groupBits, mem_range'_1] at inside
    have pos := fs.blocksPerGroup_pos
    by_cases first : g = 0
    · rw [if_pos first] at inside
      omega
    · have least := Nat.mul_pos (Nat.pos_of_ne_zero first) pos
      omega
  · exact Nat.lt_trans below fs.blocksCount_lt
  · intro p x liveP inB held
    exact unused p x liveP inB ((holds_congr consistent grown.tables blocks liveP).mp held)
  · intro g' i' live' inside' same
    rw [bitAt_marked consistent live inside live' (groupBits_lt inside').2,
      decide_eq_true (place_unique (groupBits_lt inside').1 (groupBits_lt inside).1 same), Bool.or_true]
  · intro c fresh
    refine ⟨fresh.of_same consistent grown.tables blocks kept, ?_⟩
    rintro rfl
    rw [fresh.taken g i live inside rfl] at clear
    cases clear

end

end Alloc

section Link

open Function

theorem link_inode (role : Role) (consistent : fs.Consistent img raws files spare)
    (fresh : fs.Fresh img raws files b) (vacant : fs.blockOf img (raws n) role = none)
    (linked : fs.blockOf img raw' role = some b)
    (rest : ∀ role', role' ≠ role → fs.blockOf img raw' role' = fs.blockOf img (raws n) role')
    (size : raw'.sizeLow = (raws n).sizeLow) :
    Extended fs files n img raws img (update raws n raw') ∧
      fs.Consistent img (update raws n raw') files spare := by
  refine ⟨⟨⟨?_, ?_, ?_, ?_, ?_, ?_⟩, ?_, ?_⟩, consistent.link n role fresh ?_ ?_ ?_ ?_⟩
  · exact fun _ _ => ⟨rfl, rfl⟩
  · exact fun _ _ _ _ _ => rfl
  · exact fun m other => update_of_ne other ..
  · exact fun _ _ _ _ => rfl
  · exact fun _ _ _ _ _ _ => rfl
  · intro role' c mapped
    rw [update_self, rest role' (by rintro rfl; rw [vacant] at mapped; exact absurd mapped (by simp)), mapped]
  · exact fun _ _ _ _ _ => rfl
  · rw [update_self, size]
  · exact fun _ _ => ⟨rfl, rfl⟩
  · exact fun _ _ _ _ => rfl
  · exact (congrArg (fs.blockOf img · role) (update_self ..)).trans linked
  · intro m _ role' other
    by_cases here : m = n
    · subst here
      rw [update_self]
      exact rest role' fun same => other (same ▸ rfl)
    · rw [update_of_ne here]

theorem Fresh.link_inode {role : Role} (fresh : fs.Fresh img raws files c) (other : c ≠ b)
    (linked : fs.blockOf img raw' role = some b)
    (rest : ∀ role', role' ≠ role → fs.blockOf img raw' role' = fs.blockOf img (raws n) role') :
    fs.Fresh img (update raws n raw') files c := by
  refine ⟨fresh.pos, fresh.small, fun p x live inside held => ?_, fresh.taken⟩
  cases p with
  | descriptor g => exact fresh.unused (.descriptor g) x live inside held
  | bitmap g => exact fresh.unused (.bitmap g) x live inside held
  | inode m => exact fresh.unused (.inode m) x live inside held
  | block m role' =>
    obtain ⟨d, mapped, inD⟩ := held
    by_cases here : m = n
    · subst here
      rw [update_self] at mapped
      by_cases same : role' = role
      · rw [same, linked, some.injEq] at mapped
        exact other (inBlock_unique inside (mapped ▸ inD))
      · exact fresh.unused (.block m role') x live inside ⟨d, rest role' same ▸ mapped, inD⟩
    · rw [update_of_ne here] at mapped
      exact fresh.unused (.block m role') x live inside ⟨d, mapped, inD⟩

theorem link_entry (consistent : fs.Consistent img raws files spare) (mem : n ∈ files)
    (fresh : fs.Fresh img raws files b) (used : (raws n).block 12 ≠ 0) (inside : j < fs.ptrsPerBlock)
    (vacant : fs.inodeReadBlock img (raws n) (12 + j) = none)
    (write : img' = put32 img ((raws n).block 12 * fs.blockSize + j * 4) b) :
    Extended fs files n img raws img' raws ∧ fs.Consistent img' raws files spare ∧
      fs.inodeReadBlock img' (raws n) (12 + j) = some b := by
  have whole := fs.four_mul_ptrs
  have here : ∀ x, img' x ≠ img x → ∀ p, fs.Live files p → fs.Holds img raws p x → p = .block n .single := by
    intro x changed p live held
    by_contra other
    refine changed ?_
    rw [write, put32]
    refine patch_outside ?_
    by_contra within
    refine other (consistent.apart p (.block n .single) x live mem held ⟨_, nonzero_of_ne used, ?_, ?_⟩)
    · omega
    · omega
  have linked : fs.inodeReadBlock img' (raws n) (12 + j) = some b := by
    rw [inodeReadBlock_single inside used, entryAt_eq _ _ _ inside, write, le32_put32 fresh.small,
      nonzero_of_ne fresh.pos]
  have rest : ∀ role, role ≠ .data (12 + j) →
      fs.blockOf img' (raws n) role = fs.blockOf img (raws n) role := by
    intro role other
    refine blockOf_congr_of_entries (fun _ _ _ => rfl) rfl rfl ?_ ?_ ?_
    · intro k below same _
      rw [entryAt_eq _ _ _ below, entryAt_eq _ _ _ below, write, le32_put32_of_ne]
      have apart : k ≠ j := by
        rintro rfl
        exact other same
      omega
    · intro pos x inB
      by_contra changed
      have same := here x changed (.block n .double) mem ⟨_, nonzero_of_ne pos, inB⟩
      exact absurd (Part.block.inj same).2 (by decide)
    · intro k c mapped x inB
      by_contra changed
      have same := here x changed (.block n (.inner k)) mem ⟨c, mapped, inB⟩
      exact Role.noConfusion (Part.block.inj same).2
  have soft : ∀ x, img' x ≠ img x → ∀ p, fs.Live files p → fs.Holds img raws p x → fs.Soft n p x := by
    intro x changed p live held
    rw [here x changed p live held]
    rfl
  have grown := grown_of_soft soft fun role c mapped => by
    rw [rest role, mapped]
    rintro rfl
    cases vacant.symm.trans mapped
  refine ⟨⟨grown, ?_, rfl⟩, consistent.link n (.data (12 + j)) fresh grown.tables ?_ linked ?_, linked⟩
  · intro idx c x mapped inC
    by_contra changed
    have same := here x changed (.block n (.data idx)) mem ⟨c, mapped, inC⟩
    exact Role.noConfusion (Part.block.inj same).2
  · intro g i live inG
    refine bitAt_spared grown.tables live inG (fun x changed held => ?_)
    exact Part.noConfusion (here x changed (.bitmap g) live held)
  · intro m memM role other
    by_cases mine : m = n
    · subst mine
      exact rest role fun same => other (same ▸ rfl)
    · exact grown.blocks m memM mine role

theorem overwrite_fresh (consistent : fs.Consistent img raws files spare) (mem : n ∈ files)
    (fresh : fs.Fresh img raws files b) (write : img' = fs.writeBlockData img b data) :
    Extended fs files n img raws img' raws ∧ fs.Consistent img' raws files spare ∧
      (∀ role, fs.blockOf img' (raws n) role = fs.blockOf img (raws n) role) ∧
      ∀ c, fs.Fresh img raws files c → fs.Fresh img' raws files c := by
  have nobody : ∀ x, img' x ≠ img x → ∀ p, fs.Live files p → ¬ fs.Holds img raws p x := by
    intro x changed p live held
    refine changed ?_
    rw [write, writeBlockData, blockAddr_eq]
    refine patch_outside ?_
    by_contra within
    exact fresh.unused p x live ⟨by omega, by omega⟩ held
  obtain ⟨grown, blocks, bits⟩ := grown_of_confined mem fun x changed p live held =>
    absurd held (nobody x changed p live)
  have kept : ∀ g i, g < fs.groups → i ∈ fs.groupBits g → fs.bitAt img g i = true →
      fs.bitAt img' g i = true := fun g i live inside set => (bits g i live inside).trans set
  refine ⟨⟨grown, ?_, rfl⟩, consistent.of_same grown.tables blocks kept, blocks n mem, fun c freshC =>
    freshC.of_same consistent grown.tables blocks kept⟩
  intro idx c x mapped inside
  by_contra changed
  exact nobody x changed (.block n (.data idx)) mem ⟨c, mapped, inside⟩

theorem block_setBlock_self (small : b < 2 ^ 32) : (raw.setBlock idx b).block idx = b := le32_put32 small

theorem block_setBlock_of_ne (other : k ≠ idx) : (raw.setBlock idx b).block k = raw.block k :=
  le32_put32_of_ne (by omega)

theorem sizeLow_setBlock : (raw.setBlock idx b).sizeLow = raw.sizeLow := le32_put32_of_ne (by omega)

theorem link_direct (consistent : fs.Consistent img raws files spare) (fresh : fs.Fresh img raws files b)
    (below : idx < 12) (vacant : fs.inodeReadBlock img (raws n) idx = none) :
    Extended fs files n img raws img (update raws n ((raws n).setBlock idx b)) ∧
      fs.Consistent img (update raws n ((raws n).setBlock idx b)) files spare ∧
      fs.inodeReadBlock img ((raws n).setBlock idx b) idx = some b := by
  have linked : fs.inodeReadBlock img ((raws n).setBlock idx b) idx = some b := by
    rw [inodeReadBlock_direct below, block_setBlock_self fresh.small, nonzero_of_ne fresh.pos]
  have rest : ∀ role, role ≠ .data idx →
      fs.blockOf img ((raws n).setBlock idx b) role = fs.blockOf img (raws n) role := by
    intro role other
    refine blockOf_congr_of_entries (fun k _ same => block_setBlock_of_ne ?_)
      (block_setBlock_of_ne (by omega)) (block_setBlock_of_ne (by omega)) (fun _ _ _ _ => rfl)
      (fun _ _ _ => rfl) (fun _ _ _ _ _ => rfl)
    rintro rfl
    exact other same
  obtain ⟨extended, consistent'⟩ := link_inode (.data idx) consistent fresh vacant linked rest sizeLow_setBlock
  exact ⟨extended, consistent', linked⟩

theorem entryAt_zeros (zeros : ∀ x, fs.InBlock c x → img x = 0) : fs.entryAt img c j = none := by
  by_cases inside : j < fs.ptrsPerBlock
  · have whole := fs.four_mul_ptrs
    have zero : le32 img (c * fs.blockSize + j * 4) = le32 (fun _ => 0) 0 :=
      le32_congr fun i below => zeros _ ⟨by omega, by omega⟩
    rw [entryAt_eq _ _ _ inside, zero]
    rfl
  · exact entryAt_outside _ _ _ (by omega)

theorem link_single (inside : j < fs.ptrsPerBlock) (consistent : fs.Consistent img raws files spare)
    (fresh : fs.Fresh img raws files c) (zeros : ∀ x, fs.InBlock c x → img x = 0)
    (unused : (raws n).block 12 = 0) (vacant : fs.inodeReadBlock img (raws n) (12 + j) = none) :
    Extended fs files n img raws img (update raws n ((raws n).setBlock 12 c)) ∧
      fs.Consistent img (update raws n ((raws n).setBlock 12 c)) files spare ∧
      fs.inodeReadBlock img ((raws n).setBlock 12 c) (12 + j) = none ∧
      ∀ b, fs.Fresh img raws files b → b ≠ c →
        fs.Fresh img (update raws n ((raws n).setBlock 12 c)) files b := by
  have twelve : ((raws n).setBlock 12 c).block 12 = c := block_setBlock_self fresh.small
  have thirteen : ((raws n).setBlock 12 c).block 13 = (raws n).block 13 := block_setBlock_of_ne (by omega)
  have used : ((raws n).setBlock 12 c).block 12 ≠ 0 := by
    rw [twelve]
    exact fresh.pos
  have linked : fs.blockOf img ((raws n).setBlock 12 c) .single = some c := by
    rw [blockOf, twelve, nonzero_of_ne fresh.pos]
  have entries : ∀ k < fs.ptrsPerBlock, fs.inodeReadBlock img ((raws n).setBlock 12 c) (12 + k) = none := by
    intro k below
    rw [inodeReadBlock_single below used, twelve]
    exact entryAt_zeros zeros
  -- without an indirect block all of its entries are read from the same place
  have before : ∀ k < fs.ptrsPerBlock, fs.inodeReadBlock img (raws n) (12 + k) = none := by
    intro k below
    rw [inodeReadBlock_double (fun both => both.2 unused)] at vacant ⊢
    rwa [Nat.sub_eq_zero_of_le (by omega)] at vacant ⊢
  have rest : ∀ role, role ≠ .single →
      fs.blockOf img ((raws n).setBlock 12 c) role = fs.blockOf img (raws n) role := by
    intro role other
    cases role with
    | single => exact absurd rfl other
    | double | inner k => rw [blockOf, blockOf, thirteen]
    | data idx =>
      show fs.inodeReadBlock img _ idx = fs.inodeReadBlock img _ idx
      by_cases below : idx < 12
      · rw [inodeReadBlock_direct below, inodeReadBlock_direct below, block_setBlock_of_ne (by omega)]
      · obtain ⟨k, rfl⟩ := Nat.exists_eq_add_of_le (Nat.le_of_not_lt below)
        by_cases indirect : k < fs.ptrsPerBlock
        · rw [entries k indirect, before k indirect]
        · rw [inodeReadBlock_double (fun both => indirect both.1),
            inodeReadBlock_double (fun both => indirect both.1), thirteen]
  have vacant' : fs.blockOf img (raws n) .single = none := by
    rw [blockOf, unused]
    rfl
  obtain ⟨extended, consistent'⟩ := link_inode .single consistent fresh vacant' linked rest sizeLow_setBlock
  exact ⟨extended, consistent', entries j inside, fun b freshB other =>
    freshB.link_inode other linked rest⟩

end Link

section SetBlock

open Function

theorem writeBlockData_entry (inside : j < fs.ptrsPerBlock) :
    fs.writeBlockData img c (put32 (fs.readBlockData img c) ((12 + j - 12) * 4) b) =
      put32 img (c * fs.blockSize + j * 4) b := by
  have whole := fs.four_mul_ptrs
  rw [writeBlockData, readBlockData, blockAddr_eq, put32, patch_patch_view (by omega),
    Nat.add_sub_cancel_left]
  rfl

section

variable (consistent : fs.Consistent img raws files spare)

include consistent

theorem set_first_entry
    (need : spare) (mem : n ∈ files) (fresh : fs.Fresh img raws files b) (inside : j < fs.ptrsPerBlock)
    (unused : (raws n).block 12 = 0) (vacant : fs.inodeReadBlock img (raws n) (12 + j) = none)
    (alloc : fs.allocBlock img = some (c, img')) (zero : zeroed = fs.writeBlockData img' c fun _ => 0) :
    let raw := (raws n).setBlock 12 c
    let entered := put32 zeroed (raw.block 12 * fs.blockSize + j * 4) b
    Extended fs files n img raws entered (update raws n raw) ∧
      fs.Consistent entered (update raws n raw) files spare ∧ fs.inodeReadBlock entered raw (12 + j) = some b := by
  intro raw entered
  obtain ⟨extended1, consistent1, blocks1, freshC, others⟩ := allocBlock_spec consistent need mem alloc
  obtain ⟨freshB, apart⟩ := others b fresh
  obtain ⟨extended2, consistent2, blocks2, stay⟩ := overwrite_fresh consistent1 mem freshC zero
  have zeros : ∀ x, fs.InBlock c x → zeroed x = 0 := by
    intro x inC
    rw [zero, writeBlockData, blockAddr_eq]
    exact patch_inside inC.1 inC.2
  have vacant2 : fs.inodeReadBlock zeroed (raws n) (12 + j) = none :=
    (blocks2 (.data (12 + j))).trans ((blocks1 (.data (12 + j))).trans vacant)
  obtain ⟨extended3, consistent3, vacant3, stay'⟩ :=
    link_single inside consistent2 (stay c freshC) zeros unused vacant2
  have freshB' := stay' b (stay b freshB) apart
  have used : (update raws n raw n).block 12 ≠ 0 := by
    rw [update_self, block_setBlock_self freshC.small]
    exact freshC.pos
  have vacant4 : fs.inodeReadBlock zeroed (update raws n raw n) (12 + j) = none := by
    rwa [update_self]
  obtain ⟨extended4, consistent4, linked⟩ :=
    link_entry consistent3 mem freshB' used inside vacant4 (by rfl)
  rw [update_self] at extended4 consistent4 linked
  refine ⟨?_, consistent4, linked⟩
  exact extended1.trans consistent (extended2.trans consistent1 (extended3.trans consistent2 extended4))

theorem inodeSetBlock_spec (need : spare) (mem : n ∈ files)
    (fresh : fs.Fresh img raws files b) (vacant : fs.inodeReadBlock img (raws n) idx = none)
    (done : fs.inodeSetBlock img (raws n) idx b = (some raw', img')) :
    Extended fs files n img raws img' (update raws n raw') ∧
      fs.Consistent img' (update raws n raw') files spare ∧ fs.inodeReadBlock img' raw' idx = some b := by
  unfold inodeSetBlock at done
  split at done
  · next below =>
    obtain ⟨rfl, rfl⟩ : (raws n).setBlock idx b = raw' ∧ img = img' := by simpa using done
    exact link_direct consistent fresh below vacant
  · next above =>
    obtain ⟨j, rfl⟩ := Nat.exists_eq_add_of_le (Nat.le_of_not_lt above)
    split at done
    · next near =>
      have inside : j < fs.ptrsPerBlock := by omega
      by_cases used : (raws n).block 12 = 0
      · rw [if_pos used] at done
        cases alloc : fs.allocBlock img with
        | none => simp [alloc] at done
        | some new =>
          rw [alloc, map_some] at done
          dsimp only at done
          rw [writeBlockData_entry inside] at done
          obtain ⟨rfl, rfl⟩ : (raws n).setBlock 12 new.1 = raw' ∧ _ = img' := by simpa using done
          exact set_first_entry consistent need mem fresh inside used vacant alloc (by rfl)
      · rw [if_neg used] at done
        dsimp only at done
        rw [writeBlockData_entry inside] at done
        obtain ⟨rfl, image⟩ : raws n = raw' ∧ _ = img' := by simpa using done
        rw [update_eq_self]
        exact link_entry consistent mem fresh used inside vacant image.symm
    · simp at done

theorem blockForWrite_spec (mem : n ∈ files) (need : fs.inodeReadBlock img (raws n) idx = none → spare)
    (done : fs.blockForWrite img (raws n) size pos idx = (some (raw', b), img')) :
    Extended fs files n img raws img' (update raws n raw') ∧
      fs.Consistent img' (update raws n raw') files spare ∧ fs.inodeReadBlock img' raw' idx = some b := by
  unfold blockForWrite at done
  split at done
  · next mapped =>
    obtain ⟨⟨rfl, rfl⟩, rfl⟩ : (raws n = raw' ∧ _ = b) ∧ img = img' := by simpa using done
    rw [update_eq_self]
    exact ⟨Extended.refl .., consistent, mapped⟩
  · next vacant =>
    split at done
    · simp at done
    · split at done
      · simp at done
      · next new alloc =>
        obtain ⟨extended, consistent1, blocks, fresh, _⟩ := allocBlock_spec consistent (need vacant) mem alloc
        split at done
        · simp at done
        · next set =>
          obtain ⟨⟨rfl, rfl⟩, rfl⟩ : (_ = raw' ∧ new.1 = b) ∧ _ = img' := by simpa using done
          obtain ⟨extended', consistent', linked⟩ := inodeSetBlock_spec consistent1 (need vacant) mem fresh
            ((blocks (.data idx)).trans vacant) set
          exact ⟨extended.trans consistent extended', consistent', linked⟩

end

end SetBlock

end Ext2Fs

end Zenus.Fs
