import Zenus.Mem.HeapList

/-! # The representation invariant of the heap

`Inv A s free live` says that the memory of `s` represents the free list `free`
and the live blocks `live`: the list is linked in address order and in normal
form, every block has its header, and the extents are disjoint parts of the
arena on 16-byte boundaries.  Allocation replaces a free block by its remainder
and deallocation puts the extent of a live block back; each is an equation on the
two lists.
-/

namespace Zenus.Mem

open Lib.Word Lib.Links Lib.Extents Block Arena
open List hiding Disjoint

/-- On 16-byte boundaries inside the arena. -/
structure Placed (A : Arena) (b : Block) : Prop where
  addr16 : 16 ∣ b.addr
  size16 : 16 ∣ b.size
  low : A.start ≤ b.addr
  high : b.addr + HEADER_SIZE + b.size ≤ A.stop

theorem Placed.small {A : Arena} {b : Block} (place : Placed A b) :
    b.addr + HEADER_SIZE + b.size + 2 * HEADER_SIZE < WORD := by
  have high := place.high
  have room := A.room
  simp only [stop, HEAP_SIZE, HEADER_SIZE] at *
  omega

theorem Block.extent_pos (b : Block) : b.extent.lo < b.extent.hi := by
  simp only [extent, HEADER_SIZE]
  omega

def Block.Clear (b c : Block) : Prop :=
  c.addr + HEADER_SIZE + c.size ≤ b.addr ∨ b.addr + HEADER_SIZE + b.size ≤ c.addr

theorem Block.clear_of_disjoint {b c : Block} (apart : Disjoint c.extent.range b.extent.range) :
    b.Clear c :=
  ordered_of_disjoint c.extent_pos b.extent_pos apart

theorem Block.Clear.far {b c : Block} (clear : b.Clear c) : Far c.addr b.addr := by
  simp only [Block.Clear, Far] at clear ⊢
  omega

theorem Block.Clear.far_inside {b c : Block} (clear : b.Clear c) {x : Nat} (low : b.addr ≤ x)
    (high : x + HEADER_SIZE ≤ b.addr + HEADER_SIZE + b.size) : Far c.addr x := by
  simp only [Block.Clear, Far] at clear ⊢
  omega

theorem cover_subset {blocks : List Block} {area : Set Nat}
    (each : ∀ b ∈ blocks, b.extent.range ⊆ area) : cover (blocks.map extent) ⊆ area := by
  rintro x ⟨e, mem, inside⟩
  obtain ⟨b, here, rfl⟩ := mem_map.mp mem
  exact each b here inside

theorem disjoint_cover {blocks : List Block} {area : Set Nat}
    (each : ∀ b ∈ blocks, Disjoint b.extent.range area) : Disjoint (cover (blocks.map extent)) area := by
  refine Set.disjoint_left.mpr ?_
  rintro x ⟨e, mem, inside⟩
  obtain ⟨b, here, rfl⟩ := mem_map.mp mem
  exact Set.disjoint_left.mp (each b here) inside

namespace FreeListAllocator

variable {A : Arena} {s t : FreeListAllocator} {free live pre post mid : List Block} {b c : Block}
variable {size v x r n prev : Nat}

structure Inv (A : Arena) (s : FreeListAllocator) (free live : List Block) : Prop where
  ready : s.initialized = true
  linked : Linked 0 s.next 0 (free.map Block.addr)
  freeHdr : ∀ b ∈ free, s.IsFree b
  usedHdr : ∀ b ∈ live, s.IsUsed b
  normal : Normal (free.map Block.extent)
  liveApart : live.Pairwise (fun b c => Disjoint b.extent.range c.extent.range)
  apart : Disjoint (cover (free.map Block.extent)) (cover (live.map Block.extent))
  placed : ∀ b ∈ free ++ live, Placed A b

/-! ## What the invariant says about addresses -/

section

variable (inv : Inv A s free live)

include inv

theorem Inv.addr_pos (mem : b ∈ free ++ live) : b.addr ≠ 0 := by
  have := (inv.placed b mem).low
  have := A.pos
  omega

theorem Inv.gaps :
    free.Pairwise (fun a b => a.extent.hi < b.extent.lo) :=
  pairwise_map.mp inv.normal.gaps

theorem Inv.spaced : ∀ n ∈ free.map addr, ∀ m ∈ free.map addr, n = m ∨ Far n m := by
  have pairs : (free.map addr).Pairwise Far := by
    refine pairwise_map.mpr (inv.gaps.imp ?_)
    intro a b gap
    simp only [extent, Far] at gap ⊢
    omega
  intro n memN m memM
  by_cases same : n = m
  · exact .inl same
  · exact .inr (pairs.forall memN memM same)

theorem Inv.distinct : (0 :: free.map addr).Nodup := by
  refine nodup_cons.mpr ⟨?_, ?_⟩
  · intro mem
    obtain ⟨b, mem, zero⟩ := mem_map.mp mem
    exact inv.addr_pos (mem_append_left _ mem) zero
  · refine pairwise_map.mpr (inv.gaps.imp ?_)
    intro a b gap
    simp only [extent] at gap
    omega

theorem Inv.clear_live (memB : b ∈ free) (memC : c ∈ live) : b.Clear c := by
  refine clear_of_disjoint (Disjoint.symm ?_)
  exact inv.apart.mono (range_subset_cover (mem_map_of_mem memB))
    (range_subset_cover (mem_map_of_mem memC))

end

theorem Inv.clear_free (inv : Inv A s (pre ++ b :: post) live) : ∀ c ∈ pre ++ post, b.Clear c := by
  obtain ⟨before, after⟩ := Normal.around (map_append ▸ inv.normal)
  intro c mem
  rcases mem_append.mp mem with mem | mem
  · exact .inl (before _ (mem_map_of_mem mem)).le
  · exact .inr (after _ (mem_map_of_mem mem)).le

theorem Inv.length_lt (inv : Inv A s free live) : free.length < FUEL := by
  have count : (free.map extent).length * HEADER_SIZE ≤ A.stop - A.start := by
    refine inv.normal.length_mul_le ?_ ?_
    · intro e mem
      obtain ⟨b, _, rfl⟩ := mem_map.mp mem
      simp only [extent]
      omega
    · intro e mem
      obtain ⟨b, here, rfl⟩ := mem_map.mp mem
      have place := inv.placed b (mem_append_left _ here)
      exact ⟨place.low, place.high⟩
  rw [length_map] at count
  simp only [stop, HEADER_SIZE, FUEL, HEAP_SIZE] at count ⊢
  omega

theorem Inv.congr (inv : Inv A s free live) (mem : t.mem = s.mem) (head : t.freeHead = s.freeHead)
    (ready : t.initialized = s.initialized) : Inv A t free live := by
  have same : ∀ a, t.header a = s.header a := fun a => by rw [header, header, mem]
  exact
    { ready := ready.trans inv.ready
      linked := inv.linked.shift (next_congr head fun _ => same 0)
        (fun n _ => next_congr head fun _ => same n)
      freeHdr := fun b member => (inv.freeHdr b member).congr (same _)
      usedHdr := fun b member => (inv.usedHdr b member).congr (same _)
      normal := inv.normal
      liveApart := inv.liveApart
      apart := inv.apart
      placed := inv.placed }

theorem Inv.recordSplitTrace (inv : Inv A s free live) (prev curr data size blockSize stop : Nat) :
    Inv A (s.recordSplitTrace prev curr data size blockSize stop) free live :=
  inv.congr rfl rfl rfl

theorem Inv.checked (inv : Inv A s free live) (site : String) :
    Inv A ((s.ensureInitialized A).debugCheckFreeList A site) free live := by
  have same : s.ensureInitialized A = s := by rw [ensureInitialized, if_pos inv.ready]
  rw [same]
  unfold debugCheckFreeList reportListFault
  split
  · exact inv
  · split
    · exact inv
    · exact inv.congr rfl rfl rfl

/-! ## Relinking the predecessor -/

/-- The address of the last block, or 0 if the head of the list comes before. -/
abbrev lastAddr (pre : List Block) : Nat := lastNode 0 (pre.map Block.addr)

theorem lastAddr_mem (pre : List Block) : lastAddr pre ∈ 0 :: pre.map addr := lastNode_mem ..

theorem lastAddr_rule {P : Nat → Prop} (each : ∀ p ∈ pre, P p.addr) (nonzero : lastAddr pre ≠ 0) :
    P (lastAddr pre) := by
  obtain ⟨p, before, same⟩ := mem_map.mp ((mem_cons.mp (lastAddr_mem pre)).resolve_left nonzero)
  exact same ▸ each p before

theorem far_lastAddr (each : ∀ p ∈ pre, Far x p.addr) : lastAddr pre ≠ 0 → Far x (lastAddr pre) :=
  lastAddr_rule each

section

variable (inv : Inv A s (pre ++ post) live)

include inv

theorem Inv.setLink_free (mem : c ∈ pre ++ post) (agree : t.header c.addr = s.header c.addr) :
    (t.setLink (lastAddr pre) v).IsFree c := by
  refine ((inv.freeHdr c mem).congr agree).setLink fun other some => Or.resolve_left ?_ other
  refine lastAddr_rule (P := fun a => c.addr = a ∨ Far c.addr a) (fun p before => ?_) some
  exact inv.spaced _ (mem_map_of_mem mem) _ (mem_map_of_mem (mem_append_left _ before))

theorem Inv.setLink_used (mem : c ∈ live) (agree : t.header c.addr = s.header c.addr) :
    (t.setLink (lastAddr pre) v).IsUsed c := by
  refine (inv.usedHdr c mem).congr ((setLink_far v (far_lastAddr fun p before => ?_)).trans agree)
  exact (inv.clear_live (mem_append_left _ before) mem).far

theorem Inv.setLink_next (mem : c ∈ post)
    (head : t.freeHead = s.freeHead) (agree : t.header c.addr = s.header c.addr) :
    (t.setLink (lastAddr pre) v).next c.addr = s.next c.addr := by
  have distinct := inv.distinct
  rw [map_append, ← cons_append] at distinct
  have other : c.addr ≠ lastAddr pre := fun eq =>
    (nodup_append.mp distinct).2.2 _ (lastAddr_mem pre) _
      (mem_map_of_mem mem) eq.symm
  rw [next_setLink_other v other]
  · exact next_congr head (fun _ => agree)
  · refine fun _ some => Or.resolve_left ?_ other
    refine lastAddr_rule (P := fun a => c.addr = a ∨ Far c.addr a) (fun p before => ?_) some
    exact inv.spaced _ (mem_map_of_mem (mem_append_right _ mem)) _
      (mem_map_of_mem (mem_append_left _ before))

theorem Inv.relink {rest : List Nat}
    (head : t.freeHead = s.freeHead) (agree : ∀ c ∈ pre, t.header c.addr = s.header c.addr)
    (tail : Linked 0 (t.setLink (lastAddr pre) v).next
      (lastAddr pre) rest) : Linked 0 (t.setLink (lastAddr pre) v).next 0 (pre.map addr ++ rest) := by
  have inFree : ∀ n ∈ pre.map addr, n ∈ (pre ++ post).map addr := fun n mem => by
    rw [map_append]
    exact mem_append_left _ mem
  refine linked_setLink (map_append ▸ inv.linked) ?_ ?_ head ?_ tail
  · exact inv.distinct.sublist
      (((sublist_append_left pre post).map addr).cons_cons 0)
  · exact fun n memN m memM => inv.spaced n (inFree n memN) m (inFree m memM)
  · exact forall_mem_map.mpr agree

end

/-! ## Allocation -/

/-- The size rounded up to the alignment of the blocks. -/
def rounded (size : Nat) : Nat := (size + 15) / 16 * 16

theorem rounded_dvd (size : Nat) : 16 ∣ rounded size := Nat.dvd_mul_left _ _

theorem le_rounded (size : Nat) : size ≤ rounded size := by
  simp only [rounded]
  omega

theorem alignUp_sixteen (h : x + 16 < WORD) : alignUp x 16 = rounded x := by
  rw [alignUp, wadd_of_lt h, wsub_of_le (by omega) h, show 16 - 1 = 2 ^ 4 - 1 by rfl,
    and_bnot_mask (by omega) (by decide)]
  rfl

theorem forall_between {prop : Block → Prop} (outer : ∀ c ∈ pre ++ post, prop c)
    (inner : ∀ c ∈ mid, prop c) : ∀ c ∈ pre ++ (mid ++ post), prop c := by
  obtain ⟨before, after⟩ := forall_mem_append.mp outer
  exact forall_mem_append.mpr ⟨before, forall_mem_append.mpr ⟨inner, after⟩⟩

variable (inv : Inv A s (pre ++ b :: post) live)

include inv

/-- The common part of both ways to serve a request from `b`: once what precedes
    `b` is linked to `mid`, the header of the part taken may be written. -/
theorem Inv.carved (mid : List Block) (ready : t.initialized = s.initialized) (head : t.freeHead = s.freeHead)
    (agree : ∀ c ∈ pre ++ post ++ live, t.header c.addr = s.header c.addr)
    (tail : Linked 0 (t.setLink (lastAddr pre) v).next
      (lastAddr pre) ((mid ++ post).map addr)) (midFree : ∀ c ∈ mid, (t.setLink (lastAddr pre) v).IsFree c)
    (midIn : ∀ c ∈ mid, Placed A c ∧ b.addr + HEADER_SIZE + r ≤ c.addr ∧
      c.addr + HEADER_SIZE + c.size ≤ b.addr + HEADER_SIZE + b.size)
    (normal : Normal ((pre ++ (mid ++ post)).map extent)) (r16 : 16 ∣ r) (fit : r ≤ b.size) :
    Inv A ((t.setLink (lastAddr pre) v).writeHeader b.addr
        ⟨MAGIC_USED, r, 0, CANARY_VALUE⟩) (pre ++ (mid ++ post)) (⟨b.addr, r⟩ :: live) := by
  have clearFree := inv.clear_free
  have clearLive : ∀ c ∈ live, b.Clear c := fun c mem =>
    inv.clear_live (mem_append_right _ (.head _)) mem
  have farList : ∀ c ∈ pre ++ (mid ++ post), Far c.addr b.addr := by
    refine forall_between (fun c mem => (clearFree c mem).far) fun c mem => ?_
    have := midIn c mem
    simp only [Far]
    omega
  have inList : ∀ c ∈ pre ++ post, c ∈ pre ++ b :: post := fun c mem =>
    ((List.Sublist.refl pre).append (sublist_cons_self b post)).subset mem
  have mine : b ∈ pre ++ b :: post := mem_append_right _ (.head _)
  have place := inv.placed b (mem_append_left _ mine)
  have freed : ∀ c ∈ pre ++ post, (t.setLink (lastAddr pre) v).IsFree c :=
    fun c mem => inv.setLink_free (inList c mem) (agree c (mem_append_left _ mem))
  refine
    { ready := ?_, linked := ?_, freeHdr := ?_, usedHdr := ?_, normal := normal, liveApart := ?_,
      apart := ?_, placed := ?_ }
  · rw [← inv.ready, ← ready]
    unfold setLink
    split_ifs <;> rfl
  · have linked := inv.relink head (fun c mem => agree c (by simp [mem])) tail
    rw [← map_append] at linked
    refine linked.shift (next_congr rfl fun zero => absurd rfl zero) ?_
    exact forall_mem_map.mpr fun c here => next_congr rfl fun _ => writeHeader_far _ (farList c here)
  · intro c mem
    exact (forall_between freed midFree c mem).congr (writeHeader_far _ (farList c mem))
  · refine forall_mem_cons.mpr ⟨?_, fun c mem => ?_⟩
    · exact ⟨by rw [writeHeader_self], by rw [writeHeader_self], by rw [writeHeader_self]⟩
    · exact (inv.setLink_used mem (agree c (mem_append_right _ mem))).congr
        (writeHeader_far _ (clearLive c mem).far)
  · refine pairwise_cons.mpr ⟨?_, inv.liveApart⟩
    intro c mem
    have := clearLive c mem
    simp only [Block.Clear, extent, Extent.range, Set.Ico_disjoint_Ico] at this ⊢
    omega
  · rw [map_cons, cover_cons]
    refine Set.disjoint_union_right.mpr ⟨disjoint_cover ?_, inv.apart.mono_left (cover_subset ?_)⟩
    · refine forall_between (fun c mem => ?_) fun c mem => ?_
      · have := clearFree c mem
        simp only [Block.Clear, extent, Extent.range, Set.Ico_disjoint_Ico] at this ⊢
        omega
      · have := midIn c mem
        simp only [extent, Extent.range, Set.Ico_disjoint_Ico]
        omega
    · refine forall_between (fun c mem => range_subset_cover (mem_map_of_mem (inList c mem))) fun c mem => ?_
      have := midIn c mem
      refine subset_trans ?_ (range_subset_cover (mem_map_of_mem mine))
      exact Set.Ico_subset_Ico (by simp only [extent]; omega) this.2.2
  · intro c mem
    rw [mem_append, mem_cons] at mem
    rcases mem with mem | rfl | mem
    · exact forall_between (fun c mem => inv.placed c (mem_append_left _ (inList c mem)))
        (fun c mem => (midIn c mem).1) c mem
    · have := place.high
      exact ⟨place.addr16, r16, place.low, by dsimp only; omega⟩
    · exact inv.placed c (mem_append_right _ mem)

theorem Inv.linked_after : Linked 0 s.next b.addr (post.map addr) := by
  have linked := inv.linked
  rw [map_append] at linked
  exact linked.suffix.2.2

omit inv

theorem Inv.header_next (inv : Inv A s free live) (mem : b ∈ free) :
    (s.header b.addr).next = s.next b.addr := by
  rw [next, if_neg (inv.addr_pos (mem_append_left _ mem))]

include inv

theorem Inv.takeWhole (r16 : 16 ∣ r) (fit : r ≤ b.size) :
    Inv A ((s.setLink (lastAddr pre) (s.header b.addr).next).writeHeader b.addr
      ⟨MAGIC_USED, r, 0, CANARY_VALUE⟩) (pre ++ post) (⟨b.addr, r⟩ :: live) := by
  refine inv.carved [] rfl rfl (fun _ _ => rfl) ?_ (by simp) (by simp) ?_ r16 fit
  · refine inv.linked_after.shift ?_ ?_
    · rw [next_setLink_self, inv.header_next (mem_append_right _ (.head _))]
    · exact forall_mem_map.mpr fun c here => inv.setLink_next (.tail _ here) rfl rfl
  · refine inv.normal.sublist (List.Sublist.map _ ?_)
    exact (List.Sublist.refl pre).append (sublist_cons_self b post)

theorem Inv.takeFront (r16 : 16 ∣ r) (n16 : 16 ∣ n) (start : x = b.addr + HEADER_SIZE + r)
    (stop : x + HEADER_SIZE + n = b.addr + HEADER_SIZE + b.size) :
    Inv A (((s.writeHeader x ⟨MAGIC_FREE, n, (s.header b.addr).next, CANARY_VALUE⟩).setLink
        (lastAddr pre) x).writeHeader b.addr ⟨MAGIC_USED, r, 0, CANARY_VALUE⟩)
      (pre ++ ⟨x, n⟩ :: post) (⟨b.addr, r⟩ :: live) := by
  have mine : b ∈ pre ++ b :: post := mem_append_right _ (.head _)
  have place := inv.placed b (mem_append_left _ mine)
  have next := inv.header_next mine
  generalize stored : (⟨MAGIC_FREE, n, (s.header b.addr).next, CANARY_VALUE⟩ : BlockHeader) = h
  -- the new header lies inside the old block, clear of everything else
  have clear : ∀ c ∈ pre ++ post ++ live, Far c.addr x := by
    intro c mem
    refine Block.Clear.far_inside (b := b) ?_ (by omega) (by omega)
    rcases mem_append.mp mem with mem | mem
    · exact inv.clear_free c mem
    · exact inv.clear_live mine mem
  have agree : ∀ c ∈ pre ++ post ++ live, (s.writeHeader x h).header c.addr = s.header c.addr :=
    fun c mem => writeHeader_far _ (clear c mem)
  have nonzero : x ≠ 0 := by
    simp only [HEADER_SIZE] at start
    omega
  have new : ((s.writeHeader x h).setLink (lastAddr pre) x).header x = h := by
    rw [setLink_far _ (far_lastAddr fun p before => ?_), writeHeader_self]
    exact symm (clear p (by simp [before]))
  refine inv.carved [⟨x, n⟩] rfl rfl agree ?_ ?_ ?_ ?_ r16
    (by omega)
  · refine ⟨next_setLink_self _ _, nonzero, inv.linked_after.shift ?_ ?_⟩
    · rw [FreeListAllocator.next, if_neg nonzero, new, ← stored]
      exact next
    · exact forall_mem_map.mpr fun c here =>
        inv.setLink_next (.tail _ here) rfl (agree c (by simp [here]))
  · intro c mem
    cases mem_singleton.mp mem
    exact ⟨by rw [new, ← stored], by rw [new, ← stored], by rw [new, ← stored]⟩
  · intro c mem
    cases mem_singleton.mp mem
    have high := place.high
    have low := place.low
    have addr16 := place.addr16
    have wide : HEADER_SIZE = 32 := rfl
    refine ⟨⟨?_, n16, ?_, ?_⟩, start.ge, stop.le⟩
    all_goals dsimp only; omega
  · have normal := inv.normal
    rw [map_append, map_cons] at normal
    rw [map_append, singleton_append, map_cons]
    refine normal.narrow (extent_pos _) ?_ ?_
    all_goals simp only [extent]; omega

omit inv

/-- What stays on the list when `r` bytes are taken from a block: nothing when the
    rest cannot hold a header and `MIN_BLOCK`. -/
def remainder (b : Block) (r : Nat) : List Block :=
  if b.size < r + HEADER_SIZE + MIN_BLOCK then []
  else [⟨b.addr + HEADER_SIZE + r, b.size - r - HEADER_SIZE⟩]

/-- No sum of the walk wraps for a request of this size. -/
def NoWrap (A : Arena) (size : Nat) : Prop := A.stop + size + 16 < WORD

theorem carve_addrs (place : Placed A b) (noWrap : NoWrap A size) :
    alignUp b.addr 16 = b.addr ∧ wadd b.addr HEADER_SIZE = b.addr + HEADER_SIZE ∧
      wadd (b.addr + HEADER_SIZE) b.size = b.addr + HEADER_SIZE + b.size ∧
      wadd (b.addr + HEADER_SIZE) size = b.addr + HEADER_SIZE + size ∧
      alignUp (b.addr + HEADER_SIZE + size) 16 = b.addr + HEADER_SIZE + rounded size ∧
      alignUp size 16 = rounded size := by
  have header : HEADER_SIZE = 32 := rfl
  have high := place.high
  have room := A.room
  have addr16 := place.addr16
  simp only [NoWrap, stop, HEAP_SIZE] at noWrap high room
  refine ⟨?_, wadd_of_lt (by omega), wadd_of_lt (by omega), wadd_of_lt (by omega), ?_, ?_⟩
  · rw [alignUp_sixteen (by omega), rounded]
    omega
  · rw [alignUp_sixteen (by omega), rounded, rounded]
    omega
  · exact alignUp_sixteen (by omega)

theorem fits_iff (place : Placed A b) (free : s.IsFree b) (noWrap : NoWrap A size) :
    s.fits size 16 b.addr = true ↔ size ≤ b.size := by
  obtain ⟨used, data, regionEnd, fin, _, _⟩ := carve_addrs place noWrap
  rw [fits, decide_eq_true_iff, used, data, free.size, fin, regionEnd]
  omega

theorem rounded_le (h : size ≤ n) (dvd : 16 ∣ n) : rounded size ≤ n := by
  simp only [rounded]
  omega

theorem carve_eq (place : Placed A b) (free : s.IsFree b) (noWrap : NoWrap A size) (fit : size ≤ b.size) :
    s.carve size 16 prev b.addr = ((if b.size < rounded size + HEADER_SIZE + MIN_BLOCK then
          s.setLink prev (s.header b.addr).next
        else
          (s.writeHeader (b.addr + HEADER_SIZE + rounded size)
            ⟨MAGIC_FREE, b.size - rounded size - HEADER_SIZE, (s.header b.addr).next,
              CANARY_VALUE⟩).setLink prev (b.addr + HEADER_SIZE + rounded size)).writeHeader b.addr
        ⟨MAGIC_USED, rounded size, 0, CANARY_VALUE⟩).recordSplitTrace
        prev b.addr (b.addr + HEADER_SIZE) size b.size (b.addr + HEADER_SIZE + b.size) := by
  obtain ⟨used, data, regionEnd, fin, leftover, extent⟩ := carve_addrs place noWrap
  have header : HEADER_SIZE = 32 := rfl
  have min : MIN_BLOCK = 32 := rfl
  have high := place.high
  have room := A.room
  have small := rounded_le fit place.size16
  simp only [stop, HEAP_SIZE] at high room
  have threshold : wadd (wadd (b.addr + HEADER_SIZE + rounded size) HEADER_SIZE) MIN_BLOCK =
      b.addr + HEADER_SIZE + rounded size + HEADER_SIZE + MIN_BLOCK := by
    rw [wadd_of_lt (b := HEADER_SIZE) (by omega), wadd_of_lt (by omega)]
  have gap : wsub (b.addr + HEADER_SIZE + b.size) (b.addr + HEADER_SIZE + rounded size) =
      b.size - rounded size := by
    rw [wsub_of_le (by omega) (by omega)]
    omega
  simp only [carve, free.size, used, data, regionEnd, fin, leftover, extent, threshold, gap]
  by_cases tight : b.size < rounded size + HEADER_SIZE + MIN_BLOCK
  · rw [if_pos tight, if_pos (by omega)]
  · rw [if_neg tight, if_neg (by omega), wsub_of_le (by omega) (by omega)]

theorem Inv.carve (inv : Inv A s (pre ++ b :: post) live) (noWrap : NoWrap A size) (fit : size ≤ b.size) :
    Inv A (s.carve size 16 (lastAddr pre) b.addr)
      (pre ++ (remainder b (rounded size) ++ post)) (⟨b.addr, rounded size⟩ :: live) := by
  have mine : b ∈ pre ++ b :: post := mem_append_right _ (.head _)
  have place := inv.placed b (mem_append_left _ mine)
  have small := rounded_le fit place.size16
  have r16 := rounded_dvd size
  have size16 := place.size16
  have header : HEADER_SIZE = 32 := rfl
  rw [carve_eq place (inv.freeHdr b mine) noWrap fit, remainder]
  split_ifs with tight
  · exact (inv.takeWhole r16 small).recordSplitTrace _ _ _ _ _ _
  · refine (inv.takeFront r16 ?_ rfl ?_).recordSplitTrace _ _ _ _ _ _
    · omega
    · omega

/-- `alloc_mut` with an alignment of at most 16 returns: null when no free block is
    large enough, and otherwise the payload of the first one that is. -/
theorem Inv.allocMut (inv : Inv A s free live) {layout : Layout} (align : layout.align ≤ 16)
    (noWrap : NoWrap A (max layout.size 1)) :
    ((∀ b ∈ free, b.size < max layout.size 1) ∧
      ∃ s', s.allocMut A layout = some (0, s') ∧ Inv A s' free live) ∨
    ∃ pre b post s', free = pre ++ b :: post ∧ (∀ c ∈ pre, c.size < max layout.size 1) ∧
      max layout.size 1 ≤ b.size ∧ s.allocMut A layout = some (b.addr + HEADER_SIZE, s') ∧
      Inv A s' (pre ++ (remainder b (rounded (max layout.size 1)) ++ post))
        (⟨b.addr, rounded (max layout.size 1)⟩ :: live) := by
  have inv := inv.checked "alloc"
  unfold FreeListAllocator.allocMut
  generalize (s.ensureInitialized A).debugCheckFreeList A "alloc" = s at inv ⊢
  have fit : ∀ c ∈ free, (s.fits (max layout.size 1) 16 c.addr = true ↔ max layout.size 1 ≤ c.size) :=
    fun c mem => fits_iff (inv.placed c (mem_append_left _ mem)) (inv.freeHdr c mem) noWrap
  have unfit : ∀ c ∈ free, s.fits (max layout.size 1) 16 c.addr = false → c.size < max layout.size 1 := by
    intro c mem none
    by_contra large
    rw [(fit c mem).mpr (Nat.le_of_not_lt large)] at none
    cases none
  have head : s.freeHead = s.next 0 := rfl
  dsimp only
  rw [max_eq_right align, head]
  rcases allocWalk_spec (max layout.size 1) 16 inv.linked inv.length_lt with
    ⟨never, result⟩ | ⟨pre, b, post, rfl, before, here, result⟩
  · exact .inl ⟨fun c mem => unfit c mem (never c mem), s, result, inv⟩
  · have mine : b ∈ pre ++ b :: post := mem_append_right _ (.head _)
    have enough := (fit b mine).mp here
    obtain ⟨used, data, _⟩ := carve_addrs (inv.placed b (mem_append_left _ mine)) noWrap
    refine .inr ⟨pre, b, post, _, rfl, ?_, enough, ?_, inv.carve noWrap enough⟩
    · exact fun c mem => unfit c (mem_append_left _ mem) (before c mem)
    · rw [result, used, data]

end FreeListAllocator

end Zenus.Mem
