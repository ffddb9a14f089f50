import Zenus.Lib.Run
import Zenus.Lib.Pool
import Zenus.Mem.FrameRegions
import Mathlib.Data.Finset.Basic
import Mathlib.Order.Interval.Set.Disjoint

/-! # The frame allocator as a pool of available frames

`avail` is the set of frames the allocator may still hand out: the recycled
stack, the pages at or above the bump pointer, and the pages below the floor that
their region's cursor has not passed.  Under the representation invariant `Wf`
the three sources are disjoint, `allocFrame` takes a member of `avail` out of it,
`freeFrame` adds at most its argument, and `reserveRegion` only shrinks it.
Exclusive ownership over whole runs then follows from the pool rules.
-/

namespace Zenus.Mem.FrameAllocator

open Lib.Word Lib.Slots Lib.Pool Function Lib.Run Option Nat
open List hiding Disjoint span

/-- The page at `p` lies wholly inside the region. -/
def Holds (r : MemRegion) (p : Nat) : Prop := r.base ≤ p ∧ p + PAGE_SIZE_U64 ≤ r.base + r.length

def High (fa : FrameAllocator) (p : Nat) : Prop :=
  PAGE_SIZE_U64 ∣ p ∧ fa.nextFree ≤ p ∧ ∃ e ∈ fa.live, Holds e.1 p

def Low (fa : FrameAllocator) (p : Nat) : Prop :=
  PAGE_SIZE_U64 ∣ p ∧ p < fa.floor ∧ ∃ e ∈ fa.live, Holds e.1 p ∧ e.2 ≤ p

def avail (fa : FrameAllocator) : Set Nat := {p | p ∈ fa.freeStack ∨ fa.High p ∨ fa.Low p}

instance (r : MemRegion) (p : Nat) : Decidable (Holds r p) := inferInstanceAs (Decidable (_ ∧ _))

instance (fa : FrameAllocator) (p : Nat) : Decidable (fa.High p) :=
  inferInstanceAs (Decidable (_ ∧ _ ∧ ∃ e ∈ fa.live, _))

instance (fa : FrameAllocator) (p : Nat) : Decidable (fa.Low p) :=
  inferInstanceAs (Decidable (_ ∧ _ ∧ ∃ e ∈ fa.live, _))

instance (fa : FrameAllocator) (p : Nat) : Decidable (p ∈ fa.avail) :=
  inferInstanceAs (Decidable (_ ∨ _ ∨ _))

/-- The representation invariant. -/
structure Wf (fa : FrameAllocator) : Prop where
  bounded : fa.regionCount ≤ MAX_REGIONS
  sane : ∀ e ∈ fa.live, Sane e
  separate : fa.live.Pairwise Separate
  ceiling : fa.nextFree + PAGE_SIZE_U64 ≤ WORD
  floorLe : fa.floor ≤ fa.nextFree
  stackNodup : fa.freeStack.Nodup
  stackFrame : ∀ p ∈ fa.freeStack, PAGE_SIZE_U64 ∣ p ∧ p < 2 ^ 52
  stackSpent : ∀ p ∈ fa.freeStack, ¬ fa.High p ∧ ¬ fa.Low p

/-! ## Page arithmetic -/

theorem pageDown_eq {x : Nat} (h : x < WORD) : pageDown x = x / 4096 * 4096 :=
  and_bnot_mask (k := 12) h (by decide)

variable {fa fa' : FrameAllocator} {p i addr used next' j cursor' lo hi : Nat}

theorem physAddr_new_some (h : (PhysAddr.new addr).map (fun frame => (some frame, fa)) = some (some p, fa')) :
    addr = p ∧ fa = fa' ∧ p < 2 ^ 52 := by
  obtain ⟨frame, made, same⟩ := map_eq_some_iff.mp h
  unfold PhysAddr.new at made
  split_ifs at made with small
  cases made
  cases same
  exact ⟨rfl, rfl, small⟩

theorem live_mem (h : i < fa.regionCount) :
    (fa.regions i, fa.lowCursor i) ∈ fa.live :=
  mem_slots.mpr ⟨i, h, rfl⟩

theorem live_pairwise {R : Entry → Entry → Prop} :
    fa.live.Pairwise R ↔ ∀ i j, i < j → j < fa.regionCount →
      R (fa.regions i, fa.lowCursor i) (fa.regions j, fa.lowCursor j) := by
  simp only [pairwise_iff_getElem, live, slots_getElem, slots_length]
  exact ⟨fun pairs i j less inside => pairs i j (less.trans inside) inside less,
    fun pairs i j _ inside less => pairs i j less inside⟩

variable (wf : fa.Wf) {e a b : MemoryRegion} {map : List MemoryRegion}

include wf

section

variable (inside : i < fa.regionCount)

include inside

/-- The high candidate is the first page at or above both the region's base and
    the bump pointer. -/
theorem Wf.highCandidate_spec :
    PAGE_SIZE_U64 ∣ fa.highCandidate i ∧ (fa.regions i).base ≤ fa.highCandidate i ∧
      fa.nextFree ≤ fa.highCandidate i := by
  have region := (wf.sane _ (live_mem inside)).region
  have ceiling := wf.ceiling
  simp only [PAGE_SIZE_U64] at region ceiling
  have small : max (fa.regions i).base fa.nextFree + 0xFFF < WORD := by omega
  have up := roundUp_spec (x := max (fa.regions i).base fa.nextFree) (a := 4096) (by decide)
  rw [highCandidate, wadd_of_lt small, pageDown_eq small]
  exact ⟨up.2.2, by omega, by omega⟩

theorem Wf.lowCandidate_max :
    fa.lowCandidate i = max (fa.lowCursor i) (((fa.regions i).base + 4095) / 4096 * 4096) := by
  have region := (wf.sane _ (live_mem inside)).region
  simp only [PAGE_SIZE_U64] at region
  have first : wadd (fa.regions i).base PAGE_SIZE_U64 = (fa.regions i).base + 4096 :=
    wadd_of_lt (by simp only [PAGE_SIZE_U64]; omega)
  have second : wsub ((fa.regions i).base + 4096) 1 = (fa.regions i).base + 4095 :=
    wsub_of_le (by omega) (by omega)
  rw [lowCandidate, first, second, pageDown_eq (by omega)]

theorem Wf.lowCandidate_spec :
    PAGE_SIZE_U64 ∣ fa.lowCandidate i ∧ (fa.regions i).base ≤ fa.lowCandidate i ∧
      fa.lowCursor i ≤ fa.lowCandidate i := by
  have sane := wf.sane _ (live_mem inside)
  have up := roundUp_spec (x := (fa.regions i).base) (a := 4096) (by decide)
  rw [wf.lowCandidate_max inside]
  refine ⟨?_, by omega, by omega⟩
  rcases max_choice (fa.lowCursor i) (((fa.regions i).base + 4095) / 4096 * 4096) with pick | pick
  · rw [pick]
    exact sane.aligned
  · rw [pick]
    exact up.2.2

theorem Wf.holds_of_fits (small : p < 2 ^ 52) (low : (fa.regions i).base ≤ p)
    (fits : wadd p PAGE_SIZE_U64 ≤ (fa.regions i).endAddr) : Holds (fa.regions i) p := by
  have end_ := (wf.sane _ (live_mem inside)).endAddr
  have word := WORD_eq
  rw [wadd_of_lt (by simp only [PAGE_SIZE_U64]; omega)] at fits
  exact ⟨low, end_ ▸ fits⟩

end

/-! ## Taking a frame -/

/-- What a successful allocation does to the pool. -/
structure Took (fa : FrameAllocator) (p : Nat) (fa' : FrameAllocator) : Prop where
  mem : p ∈ fa.avail
  page : PAGE_SIZE_U64 ∣ p
  small : p < 2 ^ 52
  wf : fa'.Wf
  sub : fa'.avail ⊆ fa.avail \ {p}

theorem Wf.took_stack {rest : List Nat} (top : fa.freeStack = p :: rest) :
    Took fa p { fa with freeStack := rest, usedMemory := used } := by
  have here : p ∈ fa.freeStack := by rw [top]; exact .head _
  have older : ∀ q ∈ rest, q ∈ fa.freeStack := fun q h => by rw [top]; exact .tail _ h
  have nodup := wf.stackNodup
  rw [top, nodup_cons] at nodup
  refine ⟨.inl here, (wf.stackFrame p here).1, (wf.stackFrame p here).2, ?_, ?_⟩
  · exact ⟨wf.bounded, wf.sane, wf.separate, wf.ceiling, wf.floorLe, nodup.2,
      fun q h => wf.stackFrame q (older q h), fun q h => wf.stackSpent q (older q h)⟩
  · rintro q (stack | reach)
    · refine ⟨.inl (older q stack), ?_⟩
      rintro rfl
      exact nodup.1 stack
    · refine ⟨.inr reach, ?_⟩
      rintro rfl
      have spent := wf.stackSpent q here
      exact reach.elim spent.1 spent.2

omit wf in
theorem wadd_page (small : p < 2 ^ 52) : wadd p PAGE_SIZE_U64 = p + PAGE_SIZE_U64 := by
  have word := WORD_eq
  exact wadd_of_lt (by simp only [PAGE_SIZE_U64]; omega)

theorem Wf.took_high (inside : i < fa.regionCount) (stack : fa.freeStack = [])
    (fits : fa.highFits i = true) (small : fa.highCandidate i < 2 ^ 52)
    (bump : next' = fa.highCandidate i + PAGE_SIZE_U64) :
    Took fa (fa.highCandidate i) { fa with nextFree := next', usedMemory := used } := by
  obtain ⟨page, low, next⟩ := wf.highCandidate_spec inside
  have word := WORD_eq
  have holds := wf.holds_of_fits inside small low (by simpa [highFits] using fits)
  have floor := wf.floorLe
  refine ⟨.inr (.inl ⟨page, next, _, live_mem inside, holds⟩), page, small, ?_, ?_⟩
  · refine ⟨wf.bounded, wf.sane, wf.separate, ?_, ?_, wf.stackNodup, wf.stackFrame, ?_⟩
    · simp only [bump, PAGE_SIZE_U64]
      omega
    · simp only
      omega
    · simp [stack]
  · rintro q (onStack | ⟨pageQ, above, reach⟩ | ⟨pageQ, below, reach⟩)
    · simp [stack] at onStack
    · simp only [bump, PAGE_SIZE_U64] at above
      refine ⟨.inr (.inl ⟨pageQ, by omega, reach⟩), ?_⟩
      rintro rfl
      omega
    · refine ⟨.inr (.inr ⟨pageQ, below, reach⟩), ?_⟩
      rintro rfl
      simp only at below
      omega

theorem Wf.holds_unique (hi : i < fa.regionCount) (hj : j < fa.regionCount) (inI : Holds (fa.regions i) p)
    (inJ : Holds (fa.regions j) p) : i = j := by
  by_contra different
  have pairs := live_pairwise.mp wf.separate
  simp only [Holds, PAGE_SIZE_U64] at inI inJ
  rcases lt_or_gt_of_ne different with less | greater
  · have apart := pairs i j less hj
    simp only [Separate] at apart
    omega
  · have apart := pairs j i greater hi
    simp only [Separate] at apart
    omega

theorem Wf.took_low (inside : i < fa.regionCount) (stack : fa.freeStack = [])
    (fits : fa.lowFits i = true) (small : fa.lowCandidate i < 2 ^ 52)
    (bump : cursor' = fa.lowCandidate i + PAGE_SIZE_U64) :
    Took fa (fa.lowCandidate i)
      { fa with lowCursor := update fa.lowCursor i cursor', usedMemory := used } := by
  obtain ⟨page, low, cursor⟩ := wf.lowCandidate_spec inside
  have word := WORD_eq
  simp only [lowFits, Bool.and_eq_true, decide_eq_true_eq] at fits
  have holds := wf.holds_of_fits inside small low fits.1
  have floor := wf.floorLe
  -- the new cursor list, entry by entry
  have entries : ∀ e' ∈ slots (fun j => (fa.regions j, update fa.lowCursor i cursor' j))
      fa.regionCount,
      ∃ j < fa.regionCount, e'.1 = fa.regions j ∧
        e'.2 = if j = i then fa.lowCandidate i + PAGE_SIZE_U64 else fa.lowCursor j := by
    intro e' mem
    obtain ⟨j, insideJ, rfl⟩ := mem_slots.mp mem
    refine ⟨j, insideJ, rfl, ?_⟩
    simp only [update_apply, bump]
  refine ⟨.inr (.inr ⟨page, fits.2, _, live_mem inside, holds, cursor⟩), page, small, ?_, ?_⟩
  · refine ⟨wf.bounded, ?_, ?_, wf.ceiling, wf.floorLe, wf.stackNodup, wf.stackFrame, ?_⟩
    · intro e' mem
      obtain ⟨j, insideJ, region, cursorJ⟩ := entries e' mem
      have saneJ := wf.sane _ (live_mem insideJ)
      refine ⟨region ▸ saneJ.region, ?_, ?_⟩ <;> rw [cursorJ] <;> split
      · simp only [PAGE_SIZE_U64]
        omega
      · exact saneJ.cursor
      · exact Nat.dvd_add page dvd_rfl
      · exact saneJ.aligned
    · have pairs := live_pairwise.mp wf.separate
      exact live_pairwise.mpr pairs
    · simp [stack]
  · rintro q (onStack | ⟨pageQ, above, e', mem, holdsQ⟩ | ⟨pageQ, below, e', mem, holdsQ, cursorQ⟩)
    · simp [stack] at onStack
    · obtain ⟨j, insideJ, region, _⟩ := entries e' mem
      rw [region] at holdsQ
      refine ⟨.inr (.inl ⟨pageQ, above, _, live_mem insideJ, holdsQ⟩), ?_⟩
      rintro rfl
      simp only at above
      omega
    · obtain ⟨j, insideJ, region, cursorJ⟩ := entries e' mem
      rw [region] at holdsQ
      rw [cursorJ] at cursorQ
      by_cases same : j = i
      · subst same
        rw [if_pos rfl] at cursorQ
        simp only [PAGE_SIZE_U64] at cursorQ
        refine ⟨.inr (.inr ⟨pageQ, below, _, live_mem insideJ, holdsQ, by simp only; omega⟩), ?_⟩
        rintro rfl
        omega
      · rw [if_neg same] at cursorQ
        refine ⟨.inr (.inr ⟨pageQ, below, _, live_mem insideJ, holdsQ, cursorQ⟩), ?_⟩
        rintro rfl
        exact same (wf.holds_unique insideJ inside holdsQ holds)

theorem Wf.allocFrame_took (h : fa.allocFrame = some (some p, fa')) :
    Took fa p fa' ∧ (fa.freeStack = p :: fa'.freeStack ∨ (fa.freeStack = [] ∧ fa'.freeStack = [])) := by
  unfold allocFrame at h
  split at h
  · rename_i addr rest stack
    obtain ⟨rfl, rfl, -⟩ := physAddr_new_some h
    exact ⟨wf.took_stack stack, .inl stack⟩
  · rename_i stack
    unfold allocFromRegions at h
    split at h
    · rename_i i found
      have inside := mem_range.mp (mem_of_find?_eq_some found)
      obtain ⟨rfl, rfl, small⟩ := physAddr_new_some h
      exact ⟨wf.took_high inside stack (find?_some found) small (wadd_page small), .inr ⟨stack, stack⟩⟩
    · split at h
      · rename_i i found
        have inside := mem_range.mp (mem_of_find?_eq_some found)
        obtain ⟨rfl, rfl, small⟩ := physAddr_new_some h
        exact ⟨wf.took_low inside stack (find?_some found) small (wadd_page small), .inr ⟨stack, stack⟩⟩
      · simp at h

theorem Wf.allocFrame_some (h : fa.allocFrame = some (some p, fa')) : Took fa p fa' :=
  (wf.allocFrame_took h).1

omit wf in
theorem allocFrame_empty (h : fa.allocFrame = some (none, fa')) : fa' = fa := by
  unfold allocFrame at h
  split at h
  · simp [map_eq_some_iff] at h
  · unfold allocFromRegions at h
    split at h
    · simp [map_eq_some_iff] at h
    · split at h
      · simp [map_eq_some_iff] at h
      · simp only [some.injEq, Prod.mk.injEq, true_and] at h
        exact h.symm

/-! ## Giving a frame back -/

omit wf in
theorem freeFrame_cases (fa : FrameAllocator) (p : Nat) :
    fa.freeFrame p = fa ∨
      (p ≠ 0 ∧ PAGE_SIZE_U64 ∣ p ∧ p ∉ fa.freeStack ∧ fa.freeStack.length < FREE_STACK_SIZE ∧ fa.freeFrame p =
          { fa with freeStack := p :: fa.freeStack, usedMemory := fa.usedMemory - PAGE_SIZE_U64 }) := by
  unfold freeFrame
  split_ifs with bad present room
  · exact .inl rfl
  · exact .inl rfl
  · refine .inr ⟨by tauto, ?_, present, room, rfl⟩
    have mask : p &&& (PAGE_SIZE_U64 - 1) = p % 4096 := and_two_pow_sub_one_eq_mod p 12
    have zero : p % 4096 = 0 := by
      rw [← mask]
      tauto
    exact dvd_of_mod_eq_zero zero
  · exact .inl rfl

/-- Freeing a frame that is not available keeps the invariant and makes at most
    that frame available. -/
theorem Wf.freeFrame (small : p < 2 ^ 52) (held : p ∉ fa.avail) :
    (fa.freeFrame p).Wf ∧ (fa.freeFrame p).avail ⊆ insert p fa.avail := by
  rcases freeFrame_cases fa p with same | ⟨_, page, absent, _, pushed⟩
  · rw [same]
    exact ⟨wf, Set.subset_insert _ _⟩
  · rw [pushed]
    refine ⟨⟨wf.bounded, wf.sane, wf.separate, wf.ceiling, wf.floorLe,
      nodup_cons.mpr ⟨absent, wf.stackNodup⟩, ?_, ?_⟩, ?_⟩
    · exact forall_mem_cons.mpr ⟨⟨page, small⟩, wf.stackFrame⟩
    · refine forall_mem_cons.mpr ⟨?_, wf.stackSpent⟩
      exact ⟨fun high => held (.inr (.inl high)), fun low => held (.inr (.inr low))⟩
    · rintro q (stack | reach)
      · rcases stack with _ | ⟨_, stack⟩
        · exact Set.mem_insert _ _
        · exact Set.mem_insert_of_mem _ (.inl stack)
      · exact Set.mem_insert_of_mem _ (.inr reach)

/-! ## Reserving a range -/

omit wf in
theorem live_reserve (fa : FrameAllocator) (bounded : fa.regionCount ≤ MAX_REGIONS) (base endAddr : Nat) :
    (reserveLoop base endAddr (2 * fa.regionCount) 0 fa).live =
      carve base endAddr (MAX_REGIONS - fa.regionCount) fa.live := by
  have paid := cost_le base endAddr fa.live
  rw [live_length] at paid
  exact reserveLoop_live base endAddr _ fa [] fa.live rfl bounded paid

theorem Wf.shrunk (bounded : fa'.regionCount ≤ MAX_REGIONS)
    (parts : ∀ e' ∈ fa'.live, Sane e' ∧ ∃ e ∈ fa.live, PartOf e e')
    (separate : fa'.live.Pairwise Separate) (next : fa.nextFree ≤ fa'.nextFree)
    (ceiling : fa'.nextFree + PAGE_SIZE_U64 ≤ WORD) (floor : fa'.floor = fa.floor)
    (stack : fa'.freeStack = fa.freeStack) : fa'.Wf ∧ fa'.avail ⊆ fa.avail := by
  have high : ∀ p, fa'.High p → fa.High p := by
    rintro p ⟨page, above, e', mem, holds⟩
    obtain ⟨_, e, old, part⟩ := parts e' mem
    have low := part.low
    have top := part.high
    exact ⟨page, by omega, e, old, by simp only [Holds] at *; omega⟩
  have low : ∀ p, fa'.Low p → fa.Low p := by
    rintro p ⟨page, below, e', mem, holds, cursor⟩
    obtain ⟨_, e, old, part⟩ := parts e' mem
    have low := part.low
    have top := part.high
    have pass := part.cursor
    exact ⟨page, by omega, e, old, by simp only [Holds] at *; omega, by omega⟩
  refine ⟨⟨bounded, fun e' mem => (parts e' mem).1, separate, ceiling, ?_, ?_, ?_, ?_⟩, ?_⟩
  · have := wf.floorLe
    omega
  · rw [stack]
    exact wf.stackNodup
  · rw [stack]
    exact wf.stackFrame
  · rw [stack]
    intro p mem
    exact ⟨fun h => (wf.stackSpent p mem).1 (high p h), fun h => (wf.stackSpent p mem).2 (low p h)⟩
  · rintro p (onStack | reach | reach)
    · exact .inl (stack ▸ onStack)
    · exact .inr (.inl (high p reach))
    · exact .inr (.inr (low p reach))

theorem Wf.reshaped (page : PAGE_SIZE_U64 ∣ hi) (range : hi = 0 ∨ lo ≤ hi) :
    (reserveLoop lo hi (2 * fa.regionCount) 0 fa).regionCount ≤ MAX_REGIONS ∧
      (∀ e' ∈ (reserveLoop lo hi (2 * fa.regionCount) 0 fa).live, Sane e' ∧ ∃ e ∈ fa.live, PartOf e e') ∧
      (reserveLoop lo hi (2 * fa.regionCount) 0 fa).live.Pairwise Separate := by
  have shape := live_reserve fa wf.bounded lo hi
  refine ⟨?_, ?_, ?_⟩
  · have count := carve_length lo hi fa.live (MAX_REGIONS - fa.regionCount)
    rw [← shape, live_length, live_length] at count
    have := wf.bounded
    omega
  · rw [shape]
    exact carve_sane page _ wf.sane
  · rw [shape]
    exact carve_separate page range _ wf.sane wf.separate

theorem Wf.fixNext (bounded : fa'.regionCount ≤ MAX_REGIONS)
    (parts : ∀ e' ∈ fa'.live, Sane e' ∧ ∃ e ∈ fa.live, PartOf e e')
    (separate : fa'.live.Pairwise Separate) (next : fa'.nextFree = fa.nextFree)
    (top : hi + PAGE_SIZE_U64 ≤ WORD) (floor : fa'.floor = fa.floor) (stack : fa'.freeStack = fa.freeStack) :
    (fa'.fixNext lo hi).Wf ∧ (fa'.fixNext lo hi).avail ⊆ fa.avail := by
  unfold FrameAllocator.fixNext
  split_ifs with fix
  · rw [next] at fix
    let moved := { fa' with nextFree := hi }
    have ahead : fa.nextFree ≤ moved.nextFree := le_of_lt fix.2
    exact wf.shrunk bounded parts separate ahead top floor stack
  · exact wf.shrunk bounded parts separate (le_of_eq next.symm) (next ▸ wf.ceiling) floor stack

theorem Wf.reserveRegion (base length : Nat) :
    (fa.reserveRegion base length).Wf ∧ (fa.reserveRegion base length).avail ⊆ fa.avail := by
  obtain ⟨page, top, range⟩ := reserveEnd_spec base length
  obtain ⟨bounded, parts, separate⟩ := wf.reshaped page range
  obtain ⟨next, floor, stack⟩ := reserveLoop_frame (pageDown base) (reserveEnd base length)
    (2 * fa.regionCount) 0 fa
  unfold FrameAllocator.reserveRegion
  split_ifs with empty
  · exact ⟨wf, subset_rfl⟩
  · exact wf.fixNext bounded parts separate next top floor stack

omit wf

/-! ## Seeding -/

theorem wf_reset (fa : FrameAllocator) : fa.reset.Wf := by
  refine ⟨zero_le _, ?_, ?_, ?_, le_rfl, nodup_nil, ?_, ?_⟩
  · simp [reset, FRAME_ALLOCATOR, live]
  · simp [reset, FRAME_ALLOCATOR, live]
  · simp [reset, FRAME_ALLOCATOR, WORD, PAGE_SIZE_U64]
  · simp [reset, FRAME_ALLOCATOR]
  · simp [reset, FRAME_ALLOCATOR]

/-- While seeding, nothing has been recycled. -/
structure Seeding (fa : FrameAllocator) : Prop where
  wf : fa.Wf
  stack : fa.freeStack = []

theorem Seeding.reserveRegion (ok : fa.Seeding) (base length : Nat) :
    (fa.reserveRegion base length).Seeding := by
  refine ⟨(ok.wf.reserveRegion base length).1, ?_⟩
  have loop := (reserveLoop_frame (pageDown base) (reserveEnd base length)
    (2 * fa.regionCount) 0 fa).2.2
  unfold FrameAllocator.reserveRegion FrameAllocator.fixNext
  split_ifs
  · exact ok.stack
  · exact loop.trans ok.stack
  · exact loop.trans ok.stack

/-- During the first pass the low pass has not started anywhere either. -/
structure Filling (fa : FrameAllocator) : Prop extends Seeding fa where
  cursor : ∀ i, fa.lowCursor i = 0

theorem live_addUsable (fa : FrameAllocator) (e : MemoryRegion) :
    (fa.addUsable e).live = fa.live ∨ (e.isUsable = true ∧ e.length > 0 ∧ fa.regionCount < MAX_REGIONS ∧
        (fa.addUsable e).live = fa.live ++ [(⟨e.base, e.length⟩, fa.lowCursor fa.regionCount)]) := by
  unfold addUsable
  split_ifs with usable room
  · refine .inr ⟨usable.1, usable.2, room, ?_⟩
    have appended := slots_update_self (fun i => (fa.regions i, fa.lowCursor i)) fa.regionCount
      (⟨e.base, e.length⟩, fa.lowCursor fa.regionCount)
    have paired : (fun i => (update fa.regions fa.regionCount ⟨e.base, e.length⟩ i,
        fa.lowCursor i)) = update (fun i => (fa.regions i, fa.lowCursor i)) fa.regionCount
          (⟨e.base, e.length⟩, fa.lowCursor fa.regionCount) := by
      funext j
      simp only [update_apply]
      split_ifs with same
      · rw [same]
      · rfl
    simp only [live, paired]
    exact appended
  · exact .inl rfl
  · exact .inl rfl

theorem addUsable_frame (fa : FrameAllocator) (e : MemoryRegion) :
    (fa.addUsable e).nextFree = fa.nextFree ∧ (fa.addUsable e).floor = fa.floor ∧
      (fa.addUsable e).freeStack = fa.freeStack ∧ (fa.addUsable e).lowCursor = fa.lowCursor := by
  unfold addUsable
  split_ifs <;> exact ⟨rfl, rfl, rfl, rfl⟩

theorem Filling.addUsable (ok : fa.Filling)
    (fits : e.base + e.length + PAGE_SIZE_U64 < WORD) (clear : e.isUsable = true → 0 < e.length →
      ∀ x ∈ fa.live, Separate x (⟨e.base, e.length⟩, 0)) : (fa.addUsable e).Filling := by
  obtain ⟨next, floor, stack, cursor⟩ := addUsable_frame fa e
  have empty : (fa.addUsable e).freeStack = [] := stack.trans ok.stack
  have word := WORD_eq
  have lists : (∀ x ∈ (fa.addUsable e).live, Sane x) ∧
      (fa.addUsable e).live.Pairwise Separate ∧ (fa.addUsable e).regionCount ≤ MAX_REGIONS := by
    rw [← live_length]
    rcases live_addUsable fa e with same | ⟨usable, pos, room, appended⟩
    · rw [same, live_length]
      exact ⟨ok.wf.sane, ok.wf.separate, ok.wf.bounded⟩
    · rw [appended, ok.cursor]
      refine ⟨?_, ?_, ?_⟩
      · intro x mem
        rcases mem_append.mp mem with mem | mem
        · exact ok.wf.sane x mem
        · cases mem_singleton.mp mem
          exact ⟨fits, by simp only [PAGE_SIZE_U64]; omega, dvd_zero _⟩
      · refine pairwise_append.mpr ⟨ok.wf.separate, pairwise_singleton _ _, ?_⟩
        intro x mem y isNew
        cases mem_singleton.mp isNew
        exact clear usable pos x mem
      · simp only [length_append, live_length, length_singleton]
        omega
  refine ⟨⟨⟨lists.2.2, lists.1, lists.2.1, ?_, ?_, ?_, ?_, ?_⟩, empty⟩, ?_⟩
  · rw [next]
    exact ok.wf.ceiling
  · rw [next, floor]
    exact ok.wf.floorLe
  · simp [empty]
  · simp [empty]
  · simp [empty]
  · rw [cursor]
    exact ok.cursor

theorem separate_of_disjoint (ha : 0 < a.length) (hb : 0 < b.length)
    (apart : Disjoint a.span b.span) (c d : Nat) :
    Separate (⟨a.base, a.length⟩, c) (⟨b.base, b.length⟩, d) := by
  rw [MemoryRegion.span, MemoryRegion.span, Set.Ico_disjoint_Ico] at apart
  simp only [Separate]
  omega

theorem Filling.addAll :
    ∀ {fa : FrameAllocator}, fa.Filling → (∀ e ∈ map, e.base + e.length + PAGE_SIZE_U64 < WORD) →
      (map.filter (·.isUsable)).Pairwise (fun a b => Disjoint a.span b.span) →
      (∀ e ∈ map, e.isUsable = true → 0 < e.length → ∀ x ∈ fa.live, Separate x (⟨e.base, e.length⟩, 0)) →
      (map.foldl FrameAllocator.addUsable fa).Filling := by
  induction map with
  | nil =>
    intro fa ok _ _ _
    exact ok
  | cons e rest ih =>
    intro fa ok fits apart clear
    have added := ok.addUsable (fits e (.head _)) (clear e (.head _))
    rw [pairwise_filter] at apart
    obtain ⟨apartHead, apartRest⟩ := pairwise_cons.mp apart
    refine ih added (fun m h => fits m (.tail _ h))
      (pairwise_filter.mpr apartRest) ?_
    intro m mem usable pos x live
    rcases live_addUsable fa e with same | ⟨usableE, posE, _, appended⟩
    · rw [same] at live
      exact clear m (.tail _ mem) usable pos x live
    · rw [appended] at live
      rcases mem_append.mp live with live | live
      · exact clear m (.tail _ mem) usable pos x live
      · cases mem_singleton.mp live
        exact separate_of_disjoint posE pos (apartHead m mem usableE usable) _ _

section Reserving

variable {P : FrameAllocator → Prop} (keep : ∀ fa base length, P fa → P (fa.reserveRegion base length))

include keep

theorem kept_by_reserveUnusable (map : List MemoryRegion) :
    ∀ {fa : FrameAllocator}, P fa → P (map.foldl reserveUnusable fa) := by
  induction map with
  | nil => exact fun ok => ok
  | cons e rest ih =>
    intro fa ok
    refine ih ?_
    unfold reserveUnusable
    split_ifs
    · exact keep _ _ _ ok
    · exact ok

theorem kept_by_plan (input : AllocPlanInput) (ok : P fa) :
    P ((input.memoryMap.foldl reserveUnusable fa).reserveKernel input) := by
  have ok := kept_by_reserveUnusable keep input.memoryMap ok
  unfold reserveKernel
  split_ifs
  · exact keep _ _ _ (keep _ _ _ ok)
  · exact keep _ _ _ ok
  · exact keep _ _ _ ok
  · exact ok

end Reserving

theorem Seeding.seed_le (ok : fa.Seeding)
    (fits : ∀ e ∈ map, e.base + e.length + PAGE_SIZE_U64 < WORD) : fa.seed map + PAGE_SIZE_U64 ≤ WORD := by
  have word := WORD_eq
  have page : PAGE_SIZE_U64 = 4096 := rfl
  have raised : ∀ (map : List MemoryRegion), (∀ e ∈ map, e.base + e.length + PAGE_SIZE_U64 < WORD) → ∀ start,
      start + PAGE_SIZE_U64 ≤ WORD →
      map.foldl (fun start e =>
        if e.kind = 6 ∧ wadd e.base e.length > start then wadd e.base e.length else start) start +
          PAGE_SIZE_U64 ≤ WORD := by
    intro map
    induction map with
    | nil =>
      intro _ start low
      exact low
    | cons e rest ih =>
      intro fits start low
      have fit := fits e (.head _)
      refine ih (fun m h => fits m (.tail _ h)) _ ?_
      dsimp only
      split_ifs
      · rw [wadd_of_lt (by omega)]
        omega
      · exact low
  unfold seed
  split_ifs with some
  · have region := (ok.wf.sane _ (live_mem some)).region
    refine raised map fits _ ?_
    simp only at region
    split_ifs <;> omega
  · omega

section

variable (fa) {input : AllocPlanInput}
  (disjoint : (input.memoryMap.filter (·.isUsable)).Pairwise (fun a b => Disjoint a.span b.span))
  (fits : ∀ e ∈ input.memoryMap, e.base + e.length + PAGE_SIZE_U64 < WORD)

include disjoint fits

theorem filling_planRegions : (input.memoryMap.foldl FrameAllocator.addUsable fa.reset).Filling := by
  refine Filling.addAll ⟨⟨wf_reset fa, rfl⟩, fun _ => rfl⟩ fits disjoint ?_
  intro _ _ _ _ x mem
  simp [reset, FRAME_ALLOCATOR, live] at mem

theorem seeding_planRegions : (fa.planRegions input).Seeding := by
  have filled := filling_planRegions fa disjoint fits
  have ok := kept_by_plan (fun _ _ _ ok => ok.reserveRegion _ _) input filled.toSeeding
  have low := ok.seed_le fits
  unfold planRegions
  dsimp only
  generalize ((input.memoryMap.foldl reserveUnusable
    (input.memoryMap.foldl FrameAllocator.addUsable fa.reset)).reserveKernel input) = planned at ok low ⊢
  generalize planned.seed input.memoryMap = start at low ⊢
  exact ⟨⟨ok.wf.bounded, ok.wf.sane, ok.wf.separate, low, le_rfl, ok.wf.stackNodup,
    ok.wf.stackFrame, by simp [ok.stack]⟩, ok.stack⟩

end

/-! ## Capacity -/

/-- The next `n` allocations succeed. -/
def Serves : FrameAllocator → Nat → Prop
  | _, 0 => True
  | fa, n + 1 => ∃ p fa', fa.allocFrame = some (some p, fa') ∧ Serves fa' n

instance decidableServes : (fa : FrameAllocator) → (n : Nat) → Decidable (fa.Serves n)
  | _, 0 => isTrue trivial
  | fa, n + 1 =>
    match got : fa.allocFrame with
    | some (some p, fa') =>
      have iff : fa'.Serves n ↔ fa.Serves (n + 1) :=
        ⟨fun rest => ⟨p, fa', got, rest⟩, fun ⟨_, _, same, rest⟩ => by
          obtain ⟨-, rfl⟩ := Prod.mk.inj (Option.some.inj (got.symm.trans same))
          exact rest⟩
      @decidable_of_iff _ _ iff (decidableServes fa' n)
    | some (none, _) => isFalse fun ⟨_, _, same, _⟩ => by simp [got] at same
    | none => isFalse fun ⟨_, _, same, _⟩ => by simp [got] at same

theorem base_le_of_avail (fresh : fa.freeStack = [])
    (regions : ∀ e ∈ fa.live, lo ≤ e.1.base) (h : p ∈ fa.avail) : lo ≤ p := by
  rcases h with stack | ⟨_, _, e, live, holds⟩ | ⟨_, _, e, live, holds, _⟩
  · simp [fresh] at stack
  · exact (regions e live).trans holds.1
  · exact (regions e live).trans holds.1

/-! ## Runs -/

/-- The allocator together with the frames handed out and not freed since. -/
structure Sys where
  fa : FrameAllocator
  outstanding : Finset Nat

inductive Op where
  | allocFrame
  /-- `free_frame` of a frame that is currently outstanding. -/
  | freeFrame (addr : Nat)
  | reserveRegion (base length : Nat)
  deriving DecidableEq, Repr

def step (s : Sys) : Op → Option Sys
  | .allocFrame =>
    s.fa.allocFrame.map fun
      | (some frame, fa') => ⟨fa', insert frame s.outstanding⟩
      | (none, fa') => ⟨fa', s.outstanding⟩
  | .freeFrame addr =>
    if addr ∈ s.outstanding then some ⟨s.fa.freeFrame addr, s.outstanding.erase addr⟩ else none
  | .reserveRegion base length => some ⟨s.fa.reserveRegion base length, s.outstanding⟩

/-- The system invariant: a well-formed allocator, and no outstanding frame
    available. -/
structure Sys.Inv (s : Sys) : Prop where
  wf : s.fa.Wf
  exclusive : Exclusive s.fa.avail (s.outstanding : Set Nat)
  small : ∀ p ∈ s.outstanding, p < 2 ^ 52

theorem step_within {P : Nat → Prop} (s : Sys) (op : Op) (s' : Sys)
    (inv : s.Inv ∧ (∀ p ∈ s.fa.avail, P p) ∧ ∀ p ∈ s.outstanding, P p) (stepped : step s op = some s') :
    s'.Inv ∧ (∀ p ∈ s'.fa.avail, P p) ∧ ∀ p ∈ s'.outstanding, P p := by
  obtain ⟨inv, free, held⟩ := inv
  cases op with
  | allocFrame =>
    obtain ⟨⟨got, fa'⟩, served, rfl⟩ := map_eq_some_iff.mp stepped
    cases got with
    | none =>
      cases allocFrame_empty served
      exact ⟨inv, free, held⟩
    | some p =>
      have took := inv.wf.allocFrame_some served
      have exclusive := inv.exclusive.take took.sub
      rw [← Finset.coe_insert] at exclusive
      exact ⟨⟨took.wf, exclusive, (Finset.forall_mem_insert ..).mpr ⟨took.small, inv.small⟩⟩,
        fun q mem => free q (took.sub mem).1, (Finset.forall_mem_insert ..).mpr ⟨free p took.mem, held⟩⟩
  | freeFrame addr =>
    obtain ⟨out, same⟩ := ite_none_right_eq_some.mp stepped
    cases same
    have absent : addr ∉ s.fa.avail := fun mem => inv.exclusive.taken_fresh mem out
    obtain ⟨wf, sub⟩ := inv.wf.freeFrame (inv.small addr out) absent
    have exclusive := inv.exclusive.give sub
    rw [← Finset.coe_erase] at exclusive
    refine ⟨⟨wf, exclusive, fun q mem => inv.small q (Finset.mem_of_mem_erase mem)⟩, fun q mem => ?_,
      fun q mem => held q (Finset.mem_of_mem_erase mem)⟩
    rcases sub mem with rfl | mem
    · exact held q out
    · exact free q mem
  | reserveRegion base length =>
    cases stepped
    obtain ⟨wf, sub⟩ := inv.wf.reserveRegion base length
    exact ⟨⟨wf, inv.exclusive.shrink sub, inv.small⟩, fun q mem => free q (sub mem), held⟩

theorem step_inv (s : Sys) (op : Op) (s' : Sys) (inv : s.Inv) (stepped : step s op = some s') : s'.Inv :=
  (step_within s op s' ⟨inv, fun _ _ => trivial, fun _ _ => trivial⟩ stepped).1

theorem inv_of_wf (wf : fa.Wf) : Sys.Inv ⟨fa, ∅⟩ := by
  refine ⟨wf, ?_, by simp⟩
  rw [Finset.coe_empty]
  exact Exclusive.empty _

/-- Frame ownership is exclusive over whole runs: from a planned allocator, after
    any sequence of allocations, frees of outstanding frames and reservations,
    `alloc_frame` does not return an outstanding frame. -/
theorem allocFrame_exclusive (fa : FrameAllocator) (input : AllocPlanInput)
    (disjoint : (input.memoryMap.filter (·.isUsable)).Pairwise (fun a b => Disjoint a.span b.span))
    (fits : ∀ e ∈ input.memoryMap, e.base + e.length + PAGE_SIZE_U64 < WORD)
    {ops : List Op} {s : Sys} (run : exec step ops ⟨fa.planRegions input, ∅⟩ = some s)
    {p : Nat} {fa' : FrameAllocator} (served : s.fa.allocFrame = some (some p, fa')) :
    p ∉ s.outstanding := by
  have inv := invariant Sys.Inv step_inv (inv_of_wf (seeding_planRegions fa disjoint fits).wf) run
  exact inv.exclusive.taken_fresh (inv.wf.allocFrame_some served).mem

/-- Two usable entries around a kernel one, and a kernel image in the second. -/
def smallPlan : AllocPlanInput where
  memoryMap := [⟨0x1000, 0x8000, 0⟩, ⟨0x9000, 0x1000, 6⟩, ⟨0xA000, 0x40000, 0⟩]
  kernelImageBase := 0xA000
  kernelImageEnd := 0xC000
  bootStackPhys := 0

/-- Frame `0xC000` is taken and given back, so the free stack serves next. -/
def smallRun : List Op :=
  [.allocFrame, .allocFrame, .reserveRegion 0x10000 0x1000, .freeFrame 0xC000]

theorem smallPlan_disjoint :
    (smallPlan.memoryMap.filter (·.isUsable)).Pairwise (fun a b => Disjoint a.span b.span) := by
  simp [smallPlan, MemoryRegion.isUsable, MemoryRegion.span, Set.Ico_disjoint_Ico]

theorem exists_served (start : Sys) (ops : List Op) (p : Nat)
    (next : ((exec step ops start).bind fun s => s.fa.allocFrame).map (·.1) = some (some p)) :
    ∃ s fa', exec step ops start = some s ∧ s.fa.allocFrame = some (some p, fa') := by
  obtain ⟨⟨_, fa'⟩, bound, rfl⟩ := map_eq_some_iff.mp next
  obtain ⟨s, run, served⟩ := bind_eq_some_iff.mp bound
  exact ⟨s, fa', run, served⟩

theorem allocFrame_exclusive_smallPlan :
    ∃ s fa', exec step smallRun ⟨FRAME_ALLOCATOR.planRegions smallPlan, ∅⟩ = some s ∧
      s.fa.allocFrame = some (some 0xC000, fa') ∧ 0xC000 ∉ s.outstanding := by
  obtain ⟨s, fa', run, served⟩ :=
    exists_served ⟨FRAME_ALLOCATOR.planRegions smallPlan, ∅⟩ smallRun 0xC000 (by decide)
  exact ⟨s, fa', run, served,
    allocFrame_exclusive FRAME_ALLOCATOR smallPlan smallPlan_disjoint (by decide) run served⟩

end Zenus.Mem.FrameAllocator
