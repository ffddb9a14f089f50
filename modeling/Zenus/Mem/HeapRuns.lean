import Zenus.Lib.Run
import Zenus.Mem.HeapFree

/-! # Runs of the heap

A client allocates, writes into its payloads and frees them.  The free list of
every reachable heap is in normal form and disjoint from the live blocks, and the
bytes of the arena that are neither free nor live are exactly those lost to
requests that left a remainder too small to keep.
-/

namespace Zenus.Mem.FreeListAllocator

open Lib.Word Lib.Links Lib.Extents Lib.Run Block Extent Set
open List hiding Disjoint

/-- A payload the client holds: its address and the size it asked for. -/
structure Payload where
  ptr : Nat
  size : Nat
  deriving DecidableEq, Repr

structure Sys where
  heap : FreeListAllocator
  live : List Payload

inductive Op where
  | alloc (layout : Layout)
  /-- `dealloc_mut` of a payload that is currently live. -/
  | dealloc (ptr : Nat)
  /-- The client writes a word of a payload that is currently live. -/
  | store (ptr index value : Nat)

def step (A : Arena) (s : Sys) : Op → Option Sys
  | .alloc layout =>
    (s.heap.allocMut A layout).map fun (ptr, heap) =>
      if ptr = 0 then ⟨heap, s.live⟩ else ⟨heap, ⟨ptr, layout.size⟩ :: s.live⟩
  | .dealloc ptr =>
    if s.live.any (fun u => u.ptr == ptr) then
      (s.heap.deallocMut A ptr).map fun heap => ⟨heap, s.live.eraseP (fun u => u.ptr == ptr)⟩
    else none
  | .store ptr index value =>
    if s.live.any (fun u => u.ptr == ptr && decide (8 * index < u.size)) then
      some ⟨s.heap.poke (ptr + 8 * index) value, s.live⟩
    else none

/-- The heap after `init_heap`, with nothing allocated. -/
def start (A : Arena) (mem : Nat → Nat) : Sys := ⟨initHeap A mem, []⟩

def FreeList (s : FreeListAllocator) (free : List Block) : Prop :=
  Linked 0 s.next 0 (free.map Block.addr) ∧ ∀ b ∈ free, s.IsFree b

theorem FreeList.unique {s : FreeListAllocator} {free free' : List Block} (h : s.FreeList free)
    (h' : s.FreeList free') : free = free' := by
  have addrs := h.1.unique h'.1
  have recover : ∀ l : List Block, (∀ b ∈ l, s.IsFree b) →
      (l.map addr).map (fun a => (⟨a, (s.header a).size⟩ : Block)) = l := by
    intro l all
    rw [map_map]
    refine (map_congr_left ?_).trans (map_id l)
    intro b mem
    simp only [Function.comp_apply, (all b mem).size, id_eq]
  rw [← recover free h.2, ← recover free' h'.2, addrs]

/-- The block a payload belongs to, by its header. -/
def Sys.block (s : Sys) (u : Payload) : Block :=
  ⟨u.ptr - HEADER_SIZE, (s.heap.header (u.ptr - HEADER_SIZE)).size⟩

def Sys.liveBlocks (s : Sys) : List Block := s.live.map s.block

/-- The heap represents `free` and the blocks of the client's payloads. -/
structure Sys.Inv (A : Arena) (s : Sys) (free : List Block) (used : List (Block × Nat)) : Prop where
  heap : FreeListAllocator.Inv A s.heap free (used.map (·.1))
  live : s.live = used.map (fun u => ⟨u.1.addr + HEADER_SIZE, u.2⟩)
  room : ∀ u ∈ used, u.2 ≤ u.1.size

variable {A : Arena} {s s' : Sys} {free pre post : List Block} {used : List (Block × Nat)} {op : Op}
  {b : Block} {r x : Nat}

section

variable (inv : s.Inv A free used) {u : Block × Nat} {index value ptr : Nat}

include inv

theorem Sys.Inv.freeList : s.heap.FreeList free :=
  ⟨inv.heap.linked, inv.heap.freeHdr⟩

theorem Sys.Inv.block_eq (mem : u ∈ used) : s.block ⟨u.1.addr + HEADER_SIZE, u.2⟩ = u.1 := by
  have size := (inv.heap.usedHdr u.1 (mem_map_of_mem mem)).size
  simp only [Sys.block, Nat.add_sub_cancel, size]

theorem Sys.Inv.liveBlocks : s.liveBlocks = used.map (·.1) := by
  rw [Sys.liveBlocks, inv.live, map_map]
  exact map_congr_left fun u mem => inv.block_eq mem

/-! ## Steps -/

def request (layout : Layout) : Nat := max layout.size 1

/-- A request of alignment at most 16 for which no address wraps. -/
def Legal (A : Arena) : Op → Prop
  | .alloc layout => layout.align ≤ 16 ∧ NoWrap A (request layout)
  | _ => True

/-- What a legal step does to the two lists. -/
inductive Moves (A : Arena) (s s' : Sys) (free : List Block) (used : List (Block × Nat)) : Op → Prop
  | refused (layout : Layout) (small : ∀ b ∈ free, b.size < request layout)
      (inv : s'.Inv A free used) : Moves A s s' free used (.alloc layout)
  | served (layout : Layout) (pre post : List Block) (b : Block) (split : free = pre ++ b :: post)
      (first : ∀ c ∈ pre, c.size < request layout) (fit : request layout ≤ b.size)
      (inv : s'.Inv A (pre ++ (remainder b (rounded (request layout)) ++ post))
        ((⟨b.addr, rounded (request layout)⟩, layout.size) :: used)) :
      Moves A s s' free used (.alloc layout)
  | freed (ptr : Nat) (l₁ l₂ : List (Block × Nat)) (u : Block × Nat) (free' : List Block)
      (split : used = l₁ ++ u :: l₂) (inv : s'.Inv A free' (l₁ ++ l₂))
      (covers : cover (free'.map Block.extent) = cover (free.map Block.extent) ∪ u.1.extent.range) :
      Moves A s s' free used (.dealloc ptr)
  | wrote (ptr index value : Nat) (inv : s'.Inv A free used) :
      Moves A s s' free used (.store ptr index value)

theorem Sys.Inv.store (mem : u ∈ used) (inside : 8 * index < u.2) :
    Sys.Inv A ⟨s.heap.poke (u.1.addr + HEADER_SIZE + 8 * index) value, s.live⟩ free used := by
  have fits := inv.room u mem
  obtain ⟨l₁, l₂, rfl⟩ := append_of_mem mem
  have heap := inv.heap
  rw [map_append, map_cons] at heap
  obtain ⟨clearFree, clearLive⟩ := heap.clear_used
  have other : ∀ c : Block, u.1.Clear c →
      (s.heap.poke (u.1.addr + HEADER_SIZE + 8 * index) value).header c.addr = s.heap.header c.addr := by
    intro c clear
    simp only [Block.Clear] at clear
    exact poke_far _ (by omega)
  refine ⟨?_, inv.live, inv.room⟩
  rw [map_append, map_cons]
  refine { heap with ready := heap.ready, linked := ?_, freeHdr := ?_, usedHdr := ?_ }
  · refine heap.linked.shift (next_congr rfl fun zero => absurd rfl zero) ?_
    intro n here
    obtain ⟨c, memC, rfl⟩ := mem_map.mp here
    exact next_congr rfl fun _ => other c (clearFree c memC)
  · exact fun c here => (heap.freeHdr c here).congr (other c (clearFree c here))
  · intro c here
    refine (heap.usedHdr c here).congr ?_
    simp only [mem_append, mem_cons] at here
    rcases here with here | rfl | here
    · exact other c (clearLive c (mem_append_left _ here))
    · exact poke_far _ (by omega)
    · exact other c (clearLive c (mem_append_right _ here))

theorem Sys.Inv.alloc_moves {layout : Layout} (legal : Legal A (.alloc layout)) :
    ∃ s', step A s (.alloc layout) = some s' ∧ Moves A s s' free used (.alloc layout) := by
  rcases inv.heap.allocMut legal.1 legal.2 with
    ⟨none, heap, result, inv'⟩ | ⟨pre, b, post, heap, split, first, fit, result, inv'⟩
  · refine ⟨⟨heap, s.live⟩, ?_, .refused layout none ⟨inv', inv.live, inv.room⟩⟩
    simp [step, result]
  · refine ⟨⟨heap, ⟨b.addr + HEADER_SIZE, layout.size⟩ :: s.live⟩, ?_,
      .served layout pre post b split first fit ⟨inv', ?_, ?_⟩⟩
    · simp [step, result, HEADER_SIZE]
    · rw [inv.live, map_cons]
    · exact forall_mem_cons.mpr ⟨(le_max_left _ _).trans (le_rounded _), inv.room⟩

theorem Sys.Inv.dealloc_moves (held : ∃ u ∈ s.live, u.ptr = ptr) :
    ∃ s', step A s (.dealloc ptr) = some s' ∧ Moves A s s' free used (.dealloc ptr) := by
  have live := inv.live
  have held' : ∃ u ∈ used, u.1.addr + HEADER_SIZE = ptr := by
    obtain ⟨v, mem, rfl⟩ := held
    rw [live] at mem
    obtain ⟨u, here, rfl⟩ := mem_map.mp mem
    exact ⟨u, here, rfl⟩
  obtain ⟨v, memV, here⟩ := held'
  obtain ⟨u, l₁, l₂, _, same, split, erased⟩ :=
    exists_of_eraseP (p := fun u => u.1.addr + HEADER_SIZE == ptr) memV
      (by simpa using here)
  obtain rfl : u.1.addr + HEADER_SIZE = ptr := by simpa using same
  have heap := inv.heap
  rw [split, map_append, map_cons] at heap
  obtain ⟨heap', free', freed, inv', covers⟩ := heap.deallocMut
  refine ⟨⟨heap', s.live.eraseP (fun v => v.ptr == u.1.addr + HEADER_SIZE)⟩, ?_,
    .freed _ l₁ l₂ u free' split ⟨?_, ?_, ?_⟩ covers⟩
  · have any : s.live.any (fun v => v.ptr == u.1.addr + HEADER_SIZE) = true := by
      rw [live, any_map, any_eq_true]
      exact ⟨v, memV, by simpa using here⟩
    simp [step, any, freed]
  · rw [map_append]
    exact inv'
  · rw [live, eraseP_map, ← erased]
    rfl
  · intro w mem
    refine inv.room w ?_
    rw [split]
    exact ((List.Sublist.refl l₁).append (sublist_cons_self u l₂)).subset mem

theorem Sys.Inv.step_moves (legal : Legal A op)
    (stepped : step A s op = some s') : Moves A s s' free used op := by
  cases op with
  | alloc layout =>
    obtain ⟨t, result, moves⟩ := inv.alloc_moves legal
    cases result.symm.trans stepped
    exact moves
  | dealloc ptr =>
    have held : ∃ u ∈ s.live, u.ptr = ptr := by
      obtain ⟨any, _⟩ := Option.ite_none_right_eq_some.mp stepped
      simpa using any
    obtain ⟨t, result, moves⟩ := inv.dealloc_moves held
    cases result.symm.trans stepped
    exact moves
  | store ptr index value =>
    obtain ⟨any, same⟩ := Option.ite_none_right_eq_some.mp stepped
    cases same
    obtain ⟨v, mem, cond⟩ := any_eq_true.mp any
    rw [inv.live] at mem
    obtain ⟨u, here, rfl⟩ := mem_map.mp mem
    simp only [Bool.and_eq_true, beq_iff_eq, decide_eq_true_eq] at cond
    obtain ⟨rfl, inside⟩ := cond
    exact .wrote _ index value (inv.store here inside)

end

theorem Moves.inv (moves : Moves A s s' free used op) : ∃ free' used', s'.Inv A free' used' := by
  cases moves with
  | refused layout none inv | served layout pre post b split first fit inv
  | freed ptr l₁ l₂ u free' split inv covers | wrote ptr index value inv => exact ⟨_, _, inv⟩

def wholeBlock (A : Arena) : Block := ⟨A.start, HEAP_SIZE - HEADER_SIZE⟩

theorem wholeBlock_extent (A : Arena) : (wholeBlock A).extent = ⟨A.start, A.stop⟩ := by
  have wide : HEADER_SIZE ≤ HEAP_SIZE := by decide
  refine Extent.ext rfl ?_
  simp only [wholeBlock, extent, Arena.stop]
  omega

theorem freeList_whole {s : FreeListAllocator} (head : s.freeHead = A.start)
    (header : s.header A.start = ⟨MAGIC_FREE, HEAP_SIZE - HEADER_SIZE, 0, CANARY_VALUE⟩) :
    s.FreeList [wholeBlock A] := by
  refine ⟨⟨head, A.pos.ne', ?_⟩, forall_mem_singleton.mpr ?_⟩
  · show s.next A.start = 0
    rw [next, if_neg A.pos.ne', header]
  · exact ⟨congrArg BlockHeader.magic header, congrArg BlockHeader.size header,
      congrArg BlockHeader.canary header⟩

theorem start_inv (A : Arena) (mem : Nat → Nat) : (start A mem).Inv A [wholeBlock A] [] := by
  have header : (initHeap A mem).header A.start = ⟨MAGIC_FREE, HEAP_SIZE - HEADER_SIZE, 0, CANARY_VALUE⟩ :=
    writeHeader_self (new mem) A.start _
  obtain ⟨linked, freeHdr⟩ := freeList_whole rfl header
  refine ⟨⟨rfl, linked, freeHdr, by simp, ⟨?_, by simp⟩, by simp, by simp, ?_⟩, rfl, by simp⟩
  · simpa using (wholeBlock A).extent_pos
  · intro b here
    obtain rfl : b = wholeBlock A := by simpa using here
    refine ⟨A.aligned, show 16 ∣ HEAP_SIZE - HEADER_SIZE by decide, le_rfl, ?_⟩
    exact (congrArg hi (wholeBlock_extent A)).le

def Sys.Represented (A : Arena) (s : Sys) : Prop := ∃ free used, s.Inv A free used

theorem step_represented (s : Sys) (op : Op) (s' : Sys) (rep : s.Represented A) (legal : Legal A op)
    (stepped : step A s op = some s') : s'.Represented A := by
  obtain ⟨free, used, inv⟩ := rep
  exact (inv.step_moves legal stepped).inv

/-! ## The shape of every reachable heap -/

def Ordinary : Op → Prop
  | .alloc layout => layout.align ≤ 16 ∧ layout.size ≤ HEAP_SIZE
  | _ => True

theorem Ordinary.legal (ordinary : Ordinary op) : Legal A op := by
  cases op with
  | alloc layout =>
    refine ⟨ordinary.1, ?_⟩
    have size := ordinary.2
    have room := A.room
    simp only [NoWrap, request, Arena.stop]
    omega
  | dealloc ptr => trivial
  | store ptr index value => trivial

/-- The free list is strictly ascending, the extents of free and live blocks are
    disjoint parts of the arena with 16-aligned headers, no two free blocks are
    adjacent, and every payload lies in its own block. -/
structure Sys.WellFormed (A : Arena) (s : Sys) (free : List Block) : Prop where
  list : s.heap.FreeList free
  ascending : free.Pairwise (fun a b => a.addr < b.addr)
  inside : ∀ b ∈ free ++ s.liveBlocks,
    16 ∣ b.addr ∧ A.start ≤ b.addr ∧ b.addr + HEADER_SIZE + b.size ≤ A.stop
  disjoint : (free ++ s.liveBlocks).Pairwise (fun a b => Disjoint a.extent.range b.extent.range)
  coalesced : ∀ a ∈ free, ∀ b ∈ free, a.addr + HEADER_SIZE + a.size ≠ b.addr
  payload : ∀ u ∈ s.live, (s.block u).addr + HEADER_SIZE = u.ptr ∧ u.size ≤ (s.block u).size

theorem Sys.Inv.wellFormed (inv : s.Inv A free used) : s.WellFormed A free := by
  have gaps := inv.heap.gaps
  refine ⟨inv.freeList, gaps.imp ?_, ?_, ?_, ?_, ?_⟩
  · intro a b gap
    simp only [extent] at gap
    omega
  · intro b mem
    rw [inv.liveBlocks] at mem
    have place := inv.heap.placed b mem
    exact ⟨place.addr16, place.low, place.high⟩
  · have apart := pairwise_map.mp inv.heap.normal.pairwise_disjoint
    rw [inv.liveBlocks]
    refine pairwise_append.mpr ⟨apart, inv.heap.liveApart, ?_⟩
    intro a memA b memB
    exact inv.heap.apart.mono (range_subset_cover (mem_map_of_mem memA))
      (range_subset_cover (mem_map_of_mem memB))
  · -- two blocks of the list leave a gap one way or the other, and none is empty
    intro a memA b memB touch
    have wide : HEADER_SIZE = 32 := rfl
    have ordered : free.Pairwise (fun a b => a.extent.hi ≠ b.addr ∧ b.extent.hi ≠ a.addr) := by
      refine gaps.imp ?_
      intro a b gap
      simp only [extent] at gap ⊢
      omega
    have : Std.Symm (fun a b : Block => a.extent.hi ≠ b.addr ∧ b.extent.hi ≠ a.addr) :=
      ⟨fun _ _ h => h.symm⟩
    refine (ordered.forall_of_forall ?_ memA memB).1 touch
    intro c _
    simp only [extent]
    omega
  · intro u mem
    rw [inv.live] at mem
    obtain ⟨v, here, rfl⟩ := mem_map.mp mem
    rw [inv.block_eq here]
    exact ⟨rfl, inv.room v here⟩

/-- In every heap reachable through requests of alignment at most 16 and size at
    most the arena, frees of live payloads and writes into them, the
    representation invariant holds, and the next such call returns. -/
theorem reachable_wellFormed (A : Arena) (mem : Nat → Nat) {ops : List Op}
    (ordinary : ∀ op ∈ ops, Ordinary op) {s : Sys}
    (run : exec (step A) ops (start A mem) = some s) :
    (∃ free, s.WellFormed A free) ∧
      (∀ layout, Ordinary (.alloc layout) → ∃ s', step A s (.alloc layout) = some s') ∧
      (∀ u ∈ s.live, ∃ s', step A s (.dealloc u.ptr) = some s') := by
  have legal : Along (step A) (fun _ op => Legal A op) ops (start A mem) :=
    along_of_forall (fun _ op member => (ordinary op member).legal) _
  obtain ⟨free, used, inv⟩ := invariant_along (Sys.Represented A) step_represented
    ⟨_, _, start_inv A mem⟩ legal run
  refine ⟨⟨free, inv.wellFormed⟩, ?_, ?_⟩
  · intro layout fits
    obtain ⟨s', result, _⟩ := inv.alloc_moves fits.legal
    exact ⟨s', result⟩
  · intro u member
    obtain ⟨s', result, _⟩ := inv.dealloc_moves ⟨u, member, rfl⟩
    exact ⟨s', result⟩

/-- An arena in the range the linker script uses for the kernel. -/
def kernelArena : Arena where
  start := 0xffffffff80400000
  aligned := by decide
  pos := by decide
  room := by decide

def bytes (size : Nat) (small : size < 2 ^ 62) : Layout where
  size := size
  align := 8
  pow := ⟨3, rfl⟩
  small := by omega

def smallRun : List Op :=
  [.alloc (bytes 24 (by decide)), .alloc (bytes 100 (by decide)), .store 0xffffffff80400020 2 7,
    .dealloc 0xffffffff80400020, .alloc (bytes 3 (by decide))]

theorem reachable_wellFormed_smallRun :
    ∃ s, exec (step kernelArena) smallRun (start kernelArena fun _ => 0) = some s ∧
      s.live.length = 2 ∧ ∃ free, s.WellFormed kernelArena free := by
  obtain ⟨s, run, two⟩ : ∃ s, exec (step kernelArena) smallRun (start kernelArena fun _ => 0) = some s ∧
      s.live.length = 2 := exists_of_any (by decide)
  refine ⟨s, run, two, (reachable_wellFormed kernelArena _ ?_ run).1⟩
  simp [smallRun, Ordinary, bytes, HEAP_SIZE]

/-! ## Lost bytes -/

/-- Every byte of the arena is in a free block or in a live one. -/
def Sys.Accounted (A : Arena) (s : Sys) : Prop :=
  ∀ free, s.heap.FreeList free →
    cover (free.map Block.extent) ∪ cover (s.liveBlocks.map Block.extent) = Set.Ico A.start A.stop

/-- The first free block large enough for the request is used up exactly, or the
    rest of it can stand as a block. -/
def Exact (s : Sys) : Op → Prop
  | .alloc layout =>
    ∀ free b, s.heap.FreeList free → free.find? (fun b => request layout ≤ b.size) = some b →
      b.size = rounded (request layout) ∨
        rounded (request layout) + HEADER_SIZE + MIN_BLOCK ≤ b.size
  | _ => True

def held (free : List Block) (used : List (Block × Nat)) : Set Nat :=
  cover (free.map Block.extent) ∪ cover ((used.map (·.1)).map Block.extent)

theorem Sys.Inv.accounted_iff (inv : s.Inv A free used) :
    s.Accounted A ↔ held free used = Set.Ico A.start A.stop := by
  unfold Sys.Accounted
  rw [inv.liveBlocks]
  constructor
  · exact fun all => all free inv.freeList
  · intro eq free' list
    rw [← inv.freeList.unique list]
    exact eq

theorem held_served (pre post : List Block) (b : Block) (used : List (Block × Nat)) (r n : Nat) :
    held (pre ++ (remainder b r ++ post)) ((⟨b.addr, r⟩, n) :: used) = held (pre ++ post) used ∪
        ((⟨b.addr, r⟩ : Block).extent.range ∪ cover ((remainder b r).map extent)) := by
  simp only [held, map_append, map_cons, cover_append, cover_cons]
  ext x
  simp only [mem_union]
  tauto

theorem held_between (pre post : List Block) (b : Block) (used : List (Block × Nat)) :
    held (pre ++ b :: post) used = held (pre ++ post) used ∪ b.extent.range := by
  rw [held, cover_between, held, union_right_comm]

theorem kept_of_block (fit : r ≤ b.size) :
    (⟨b.addr, r⟩ : Block).extent.range ∪ cover ((remainder b r).map extent) =
      if b.size = r ∨ r + HEADER_SIZE + MIN_BLOCK ≤ b.size then b.extent.range
      else (⟨b.addr, r⟩ : Block).extent.range := by
  unfold remainder
  split_ifs with tight exact_ exact_
  · have eq : b.size = r := by omega
    simp [← eq]
  · simp
  · simp only [map_cons, map_nil, cover_cons, cover_nil, union_empty]
    simp only [extent, Extent.range]
    rw [Set.Ico_union_Ico_eq_Ico (by omega) (by omega)]
    congr 1
    omega
  · omega

theorem Sys.Inv.not_held (inv : s.Inv A (pre ++ b :: post) used)
    (inside : x ∈ b.extent.range) : x ∉ held (pre ++ post) used := by
  have mine : b ∈ pre ++ b :: post := mem_append_right _ (.head _)
  have clear : ∀ c : Block, b.Clear c → x ∉ c.extent.range := by
    intro c clear within
    simp only [Block.Clear] at clear
    simp only [extent, Extent.range, mem_Ico] at inside within
    omega
  rintro (⟨e, mem, within⟩ | ⟨e, mem, within⟩)
  · obtain ⟨c, here, rfl⟩ := mem_map.mp mem
    exact clear c (inv.heap.clear_free c here) within
  · obtain ⟨c, here, rfl⟩ := mem_map.mp mem
    exact clear c (inv.heap.clear_live mine here) within

theorem Sys.Inv.exact_iff (inv : s.Inv A free used) {layout : Layout}
    (split : free = pre ++ b :: post) (first : ∀ c ∈ pre, c.size < request layout)
    (fit : request layout ≤ b.size) :
    Exact s (.alloc layout) ↔ b.size = rounded (request layout) ∨
      rounded (request layout) + HEADER_SIZE + MIN_BLOCK ≤ b.size := by
  have found : free.find? (fun b => request layout ≤ b.size) = some b := by
    refine find?_eq_some_iff_append.mpr ⟨by simpa using fit, pre, post, split, ?_⟩
    intro c mem
    simpa using first c mem
  constructor
  · exact fun all => all free b inv.freeList found
  · intro cond free' c list other
    rw [← inv.freeList.unique list, found] at other
    cases other
    exact cond

theorem Moves.accounted_iff (inv : s.Inv A free used) (moves : Moves A s s' free used op) :
    s'.Accounted A ↔ s.Accounted A ∧ Exact s op := by
  cases moves with
  | refused layout none inv' =>
    rw [inv'.accounted_iff, inv.accounted_iff]
    refine (and_iff_left ?_).symm
    intro free' b list found
    rw [← inv.freeList.unique list] at found
    have large := find?_some found
    have small := none b (mem_of_find?_eq_some found)
    simp only [decide_eq_true_eq] at large
    omega
  | served layout pre post b split first fit inv' =>
    rw [inv'.accounted_iff, inv.accounted_iff, inv.exact_iff split first fit]
    have place := inv.heap.placed b (by simp [split])
    have small := rounded_le fit place.size16
    subst split
    rw [held_served, kept_of_block small, held_between]
    split_ifs with cond
    · exact (and_iff_left cond).symm
    · -- the byte after the part taken is in no block any more
      refine iff_of_false ?_ (fun both => cond both.2)
      intro whole
      have lost : b.addr + HEADER_SIZE + rounded (request layout) ∈ b.extent.range := by
        simp only [extent, Extent.range, mem_Ico]
        omega
      have arena : b.addr + HEADER_SIZE + rounded (request layout) ∈ Set.Ico A.start A.stop :=
        Set.Ico_subset_Ico place.low place.high lost
      rw [← whole] at arena
      rcases arena with other | taken
      · exact inv.not_held lost other
      · simp [extent, Extent.range] at taken
  | freed ptr l₁ l₂ u free' split inv' covers =>
    rw [inv'.accounted_iff, inv.accounted_iff]
    have same : held free' (l₁ ++ l₂) = held free used := by
      rw [held, covers, held, split]
      simp only [map_append, map_cons, cover_append, cover_cons]
      ext x
      simp only [mem_union]
      tauto
    rw [same]
    exact (and_iff_left trivial).symm
  | wrote ptr index value inv' =>
    rw [inv'.accounted_iff, inv.accounted_iff]
    exact (and_iff_left trivial).symm

theorem start_accounted (A : Arena) (mem : Nat → Nat) : (start A mem).Accounted A := by
  rw [(start_inv A mem).accounted_iff]
  simp [held, wholeBlock_extent, Extent.range]

/-- The heap is the single block of the whole arena again. -/
def Pristine (A : Arena) (s : FreeListAllocator) : Prop :=
  s.FreeList [wholeBlock A] ∧ s.freeSize A = some (HEAP_SIZE - HEADER_SIZE)

theorem FreeList.freeSize_singleton {s : FreeListAllocator} (list : s.FreeList [b])
    (ready : s.initialized = true) (small : b.size < WORD) : s.freeSize A = some b.size := by
  obtain ⟨first, some, last⟩ := list.1
  have free := list.2 b (.head _)
  have next : (s.header b.addr).next = 0 := by
    have : s.next b.addr = 0 := last
    rwa [FreeListAllocator.next, if_neg some] at this
  have head : s.freeHead = b.addr := first
  have same : s.ensureInitialized A = s := by rw [ensureInitialized, if_pos ready]
  obtain ⟨fuel, enough⟩ : ∃ fuel, FUEL = fuel + 2 := ⟨8388606, rfl⟩
  simp only [freeSize, same, enough, head, sizeWalk, if_neg some, next, free.magic, free.size, if_true]
  rw [wadd_of_lt (by omega), Nat.zero_add]

theorem Sys.Inv.pristine_iff (inv : s.Inv A free used) (nothing : s.live = []) :
    Pristine A s.heap ↔ s.Accounted A := by
  have empty : used = [] := by
    have := inv.live
    rw [nothing] at this
    exact map_eq_nil_iff.mp this.symm
  subst empty
  rw [inv.accounted_iff]
  simp only [held, map_nil, cover_nil, union_empty]
  constructor
  · rintro ⟨list, _⟩
    rw [inv.freeList.unique list]
    simp [wholeBlock_extent, Extent.range]
  · intro whole
    have pos : A.start < A.stop := by
      have : 0 < HEAP_SIZE := by decide
      simp only [Arena.stop]
      omega
    have single := inv.heap.normal.eq_singleton pos whole
    obtain ⟨b, rfl, extent⟩ : ∃ b, free = [b] ∧ b.extent = ⟨A.start, A.stop⟩ := by
      obtain ⟨b, rest, rfl, here, nil⟩ := map_eq_cons_iff.mp single
      cases map_eq_nil_iff.mp nil
      exact ⟨b, rfl, here⟩
    obtain rfl : b = wholeBlock A := by
      have low : b.addr = A.start := congrArg lo extent
      have high : b.addr + HEADER_SIZE + b.size = A.start + HEAP_SIZE := congrArg hi extent
      rw [wholeBlock, ← low, show HEAP_SIZE - HEADER_SIZE = b.size by omega]
    exact ⟨inv.freeList, inv.freeList.freeSize_singleton inv.heap.ready
      (show HEAP_SIZE - HEADER_SIZE < WORD by decide)⟩

/-- The heap does not leak exactly as long as no request is served from a block
    that it leaves with a few bytes too many: after a run of legal steps in which
    every payload was freed, the free list is the whole arena again if and only
    if every request was exact.  The arena has to start on a 16-byte boundary, which the
    source does not ask of the linker. -/
theorem pristine_iff_exact {base : Nat} (aligned : 16 ∣ base) (pos : 0 < base)
    (room : base + 2 * HEAP_SIZE + 64 ≤ WORD) (mem : Nat → Nat) {ops : List Op} {s : Sys} :
    let A : Arena := ⟨base, aligned, pos, room⟩
    Along (step A) (fun _ op => Legal A op) ops (start A mem) →
      exec (step A) ops (start A mem) = some s → s.live = [] →
      (Pristine A s.heap ↔ Along (step A) Exact ops (start A mem)) := by
  intro A legal run freed
  have begin : (start A mem).Represented A := ⟨_, _, start_inv A mem⟩
  obtain ⟨free, used, inv⟩ :=
    invariant_along (Sys.Represented A) step_represented begin legal run
  rw [inv.pristine_iff freed]
  refine (kept_iff_along (Sys.Represented A) ?_ begin legal run).trans
    (and_iff_right (start_accounted A mem))
  rintro t op t' ⟨free, used, inv⟩ legal stepped
  have moves := inv.step_moves legal stepped
  exact ⟨moves.inv, moves.accounted_iff inv⟩

/-- Two payloads, freed in the order they were allocated. -/
def exactRun : List Op :=
  [.alloc (bytes 24 (by decide)), .alloc (bytes 100 (by decide)), .dealloc 0xffffffff80400020,
    .dealloc 0xffffffff80400060]

theorem pristine_iff_exact_exactRun :
    ∃ s, exec (step kernelArena) exactRun (start kernelArena fun _ => 0) = some s ∧
      Pristine kernelArena s.heap ∧
      Along (step kernelArena) Exact exactRun (start kernelArena fun _ => 0) := by
  obtain ⟨s, run, freed, head, header, size⟩ : ∃ s,
      exec (step kernelArena) exactRun (start kernelArena fun _ => 0) = some s ∧ s.live = [] ∧
      s.heap.freeHead = kernelArena.start ∧ s.heap.header kernelArena.start =
        ⟨MAGIC_FREE, HEAP_SIZE - HEADER_SIZE, 0, CANARY_VALUE⟩ ∧
      s.heap.freeSize kernelArena = some (HEAP_SIZE - HEADER_SIZE) := exists_of_any (by decide +kernel)
  have pristine : Pristine kernelArena s.heap := ⟨freeList_whole head header, size⟩
  refine ⟨s, run, pristine, (pristine_iff_exact (by decide) (by decide) (by decide) _ ?_ run freed).mp pristine⟩
  refine along_of_forall (fun _ op mem => Ordinary.legal ?_) _
  simp only [exactRun, mem_cons, not_mem_nil, or_false] at mem
  rcases mem with rfl | rfl | rfl | rfl <;> simp [Ordinary, bytes, HEAP_SIZE]

/-- A request that leaves 16 bytes of the arena: they are on no list once it is
    freed again. -/
theorem freeSize_after_tight_fit :
    ∃ s, exec (step kernelArena)
        [.alloc (bytes 8388560 (by decide)), .dealloc 0xffffffff80400020]
        (start kernelArena fun _ => 0) = some s ∧ s.live = [] ∧
      s.heap.freeSize kernelArena = some (HEAP_SIZE - HEADER_SIZE - 16) ∧
      ¬ Pristine kernelArena s.heap := by
  have reads : (exec (step kernelArena)
      [.alloc (bytes 8388560 (by decide)), .dealloc 0xffffffff80400020]
      (start kernelArena fun _ => 0)).map (fun s => (s.live, s.heap.freeSize kernelArena)) =
      some ([], some (HEAP_SIZE - HEADER_SIZE - 16)) := by decide
  obtain ⟨s, run, values⟩ := Option.map_eq_some_iff.mp reads
  simp only [Prod.mk.injEq] at values
  refine ⟨s, run, values.1, values.2, ?_⟩
  rintro ⟨_, size⟩
  rw [values.2] at size
  cases size

end Zenus.Mem.FreeListAllocator
