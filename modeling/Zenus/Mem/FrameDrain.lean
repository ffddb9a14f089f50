import Mathlib
import Zenus.Mem.FrameReserve

/-! # Draining the allocator

What `alloc_frame` still returns, called until it has nothing left: how many frames,
against the number `free_frames_count` computes, and which ones, against the pages
of the live regions.
-/

namespace Zenus.Mem.FrameAllocator

open Lib.Word Lib.Slots Function Lib.Run Nat Option
open List hiding Disjoint

/-- The frames `alloc_frame` returns until it answers `None`; `none` when one of the
    calls panics or the fuel runs out. -/
def drain : Nat → FrameAllocator → Option (List Nat)
  | 0, _ => none
  | fuel + 1, fa =>
    match fa.allocFrame with
    | none => none
    | some (none, _) => some []
    | some (some p, fa') => (drain fuel fa').map (p :: ·)

variable {fa fa' : FrameAllocator} {frames is : List Nat} {p fuel c c' q addr total : Nat} {r : MemRegion}
  {got : Option Nat}

theorem drain_done (empty : fa.allocFrame = some (none, fa')) (fuel : Nat) :
    drain (fuel + 1) fa = some [] := by
  simp only [drain, empty]

theorem drain_more (served : fa.allocFrame = some (some p, fa')) (rest : drain fuel fa' = some frames) :
    drain (fuel + 1) fa = some (p :: frames) := by
  simp only [drain, served, rest, map_some]

/-- Regions and bump pointer lie in the 52-bit space `PhysAddr::new` accepts. -/
structure Physical (fa : FrameAllocator) : Prop where
  regions : ∀ e ∈ fa.live, e.1.base + e.1.length ≤ 2 ^ 52
  next : fa.nextFree ≤ 2 ^ 52

/-! ## The passes without wrapping -/

/-- The first page of the region at or above the cursor. -/
def firstPage (r : MemRegion) (cursor : Nat) : Nat := (max r.base cursor + 4095) / 4096 * 4096

theorem firstPage_mono (r : MemRegion) (le : c ≤ c') : firstPage r c ≤ firstPage r c' := by
  unfold firstPage
  omega

theorem firstPage_le (page : 4096 ∣ q) (base : r.base ≤ q) (le : c ≤ q) : firstPage r c ≤ q := by
  unfold firstPage
  omega

theorem firstPage_spec (r : MemRegion) (c : Nat) :
    4096 ∣ firstPage r c ∧ r.base ≤ firstPage r c ∧ c ≤ firstPage r c := by
  unfold firstPage
  omega

/-- The pages of the region from the cursor up to its end and the floor. -/
def lowCount (r : MemRegion) (floor cursor : Nat) : Nat :=
  min (r.base + r.length) floor / 4096 - firstPage r cursor / 4096

section Passes

variable {fa : FrameAllocator} (wf : fa.Wf) (phys : fa.Physical) {i : Nat} (inside : i < fa.regionCount)

include phys inside in
theorem Physical.region : (fa.regions i).base + (fa.regions i).length ≤ 2 ^ 52 :=
  phys.regions _ (live_mem inside)

include phys inside in
theorem Physical.endAddr : (fa.regions i).endAddr = (fa.regions i).base + (fa.regions i).length := by
  have bound := phys.region inside
  exact wadd_of_lt (by rw [WORD_eq]; omega)

include phys inside in
theorem Physical.highCandidate : fa.highCandidate i = firstPage (fa.regions i) fa.nextFree := by
  have bound := phys.region inside
  have next := phys.next
  have word := WORD_eq
  have small : max (fa.regions i).base fa.nextFree + 0xFFF < WORD := by omega
  rw [FrameAllocator.highCandidate, wadd_of_lt small, pageDown_eq small, firstPage]

include phys inside in
theorem Physical.highFits : fa.highFits i = true ↔
    firstPage (fa.regions i) fa.nextFree + 4096 ≤ (fa.regions i).base + (fa.regions i).length := by
  have bound := phys.region inside
  have next := phys.next
  have word := WORD_eq
  have near : firstPage (fa.regions i) fa.nextFree ≤ 2 ^ 52 := firstPage_le (by decide) (by omega) next
  rw [FrameAllocator.highFits, decide_eq_true_eq, phys.highCandidate inside, phys.endAddr inside,
    wadd_of_lt (by simp only [PAGE_SIZE_U64]; omega), PAGE_SIZE_U64]

include wf inside in
theorem Wf.lowCandidate_eq : fa.lowCandidate i = firstPage (fa.regions i) (fa.lowCursor i) := by
  have page := (wf.sane _ (live_mem inside)).aligned
  simp only [PAGE_SIZE_U64] at page
  rw [wf.lowCandidate_max inside, firstPage]
  omega

include wf phys inside in
theorem Physical.lowFits : fa.lowFits i = true ↔
    firstPage (fa.regions i) (fa.lowCursor i) + 4096 ≤ (fa.regions i).base + (fa.regions i).length ∧
      firstPage (fa.regions i) (fa.lowCursor i) < fa.floor := by
  have bound := phys.region inside
  have cursor := (wf.sane _ (live_mem inside)).cursor
  have page := (wf.sane _ (live_mem inside)).aligned
  have word := WORD_eq
  simp only [PAGE_SIZE_U64] at cursor page
  have small : firstPage (fa.regions i) (fa.lowCursor i) + PAGE_SIZE_U64 < WORD := by
    simp only [firstPage, PAGE_SIZE_U64]
    omega
  rw [FrameAllocator.lowFits, Bool.and_eq_true, decide_eq_true_eq, decide_eq_true_eq,
    wf.lowCandidate_eq inside, phys.endAddr inside, wadd_of_lt small, PAGE_SIZE_U64]

include wf phys inside in
theorem Physical.countLow : fa.countLow i = lowCount (fa.regions i) fa.floor (fa.lowCursor i) := by
  have bound := phys.region inside
  have word := WORD_eq
  have page := (firstPage_spec (fa.regions i) (fa.lowCursor i)).1
  simp only [FrameAllocator.countLow, phys.endAddr inside, wf.lowCandidate_eq inside, PAGE_SIZE_U64, lowCount]
  rw [pageDown_eq (by omega)]
  split_ifs <;> omega

end Passes

theorem firstPage_next (page : 4096 ∣ p) (base : r.base ≤ p) : firstPage r (p + 4096) = p + 4096 := by
  unfold firstPage
  omega

/-! ## What one allocation does -/

/-- Every outcome of `alloc_frame` inside the physical address space. -/
inductive Allocates (fa : FrameAllocator) : Option Nat → FrameAllocator → Prop where
  | stack {p : Nat} {rest : List Nat} (top : fa.freeStack = p :: rest) (used : Nat) :
      Allocates fa (some p) { fa with freeStack := rest, usedMemory := used }
  | high {i : Nat} (empty : fa.freeStack = []) (used : Nat)
      (found : (List.range fa.regionCount).find? fa.highFits = some i) :
      Allocates fa (some (firstPage (fa.regions i) fa.nextFree))
        { fa with nextFree := firstPage (fa.regions i) fa.nextFree + 4096, usedMemory := used }
  | low {i : Nat} (empty : fa.freeStack = []) (used : Nat)
      (spent : (List.range fa.regionCount).find? fa.highFits = none)
      (found : (List.range fa.regionCount).find? fa.lowFits = some i) :
      Allocates fa (some (firstPage (fa.regions i) (fa.lowCursor i)))
        { fa with
          lowCursor := update fa.lowCursor i (firstPage (fa.regions i) (fa.lowCursor i) + 4096)
          usedMemory := used }
  | nothing (empty : fa.freeStack = []) (spent : (List.range fa.regionCount).find? fa.highFits = none)
      (drained : (List.range fa.regionCount).find? fa.lowFits = none) : Allocates fa none fa

theorem physAddr_new (small : addr < 2 ^ 52) : PhysAddr.new addr = some addr := if_pos small

theorem Wf.allocates (wf : fa.Wf) (phys : fa.Physical) :
    ∃ got fa', fa.allocFrame = some (got, fa') ∧ fa.Allocates got fa' := by
  unfold allocFrame
  split
  · rename_i p rest top
    have small := (wf.stackFrame p (by rw [top]; exact (.head _))).2
    rw [physAddr_new small]
    exact ⟨_, _, rfl, .stack top _⟩
  · rename_i empty
    unfold allocFromRegions
    split
    · rename_i i found
      have inside := mem_range.mp (mem_of_find?_eq_some found)
      have fits := (phys.highFits inside).mp (find?_some found)
      have bound := phys.region inside
      have small : firstPage (fa.regions i) fa.nextFree < 2 ^ 52 := by omega
      rw [phys.highCandidate inside, physAddr_new small, map_some, wadd_page small]
      exact ⟨_, _, rfl, .high empty _ found⟩
    · rename_i spent
      split
      · rename_i i found
        have inside := mem_range.mp (mem_of_find?_eq_some found)
        have fits := (phys.lowFits wf inside).mp (find?_some found)
        have bound := phys.region inside
        have small : firstPage (fa.regions i) (fa.lowCursor i) < 2 ^ 52 := by omega
        rw [wf.lowCandidate_eq inside, physAddr_new small, map_some, wadd_page small]
        exact ⟨_, _, rfl, .low empty _ spent found⟩
      · rename_i drained
        exact ⟨_, _, rfl, .nothing empty spent drained⟩

theorem Allocates.frame (h : fa.Allocates got fa')
    (phys : fa.Physical) : fa'.Physical ∧ fa'.floor = fa.floor := by
  cases h with
  | stack _ _ => exact ⟨⟨phys.regions, phys.next⟩, rfl⟩
  | @high i _ _ found =>
    have inside := mem_range.mp (mem_of_find?_eq_some found)
    have fits := (phys.highFits inside).mp (find?_some found)
    exact ⟨⟨phys.regions, fits.trans (phys.region inside)⟩, rfl⟩
  | low _ _ _ _ =>
    refine ⟨⟨fun e mem => ?_, phys.next⟩, rfl⟩
    obtain ⟨j, inside, rfl⟩ := mem_slots.mp mem
    exact phys.region inside
  | nothing _ _ _ => exact ⟨phys, rfl⟩

/-! ## Counting -/

section High

variable (regions : Nat → MemRegion)

/-- The pages `high_pass_frames` counts in the listed regions, from a cursor on. -/
def highCount : Nat → List Nat → Nat
  | _, [] => 0
  | c, i :: rest =>
    let start := firstPage (regions i) c
    let stop := (regions i).base + (regions i).length
    if start + 4096 ≤ stop then
      (stop - start) / 4096 + highCount (start + (stop - start) / 4096 * 4096) rest
    else highCount c rest

theorem highCount_take {fits : Nat → Bool} : ∀ {is : List Nat} {i : Nat},
    (∀ j ∈ is, fits j = true ↔ firstPage (regions j) c + 4096 ≤ (regions j).base + (regions j).length) →
    is.find? fits = some i →
    highCount regions c is = highCount regions (firstPage (regions i) c + 4096) is + 1 := by
  intro is
  induction is with
  | nil =>
    intro i _ found
    simp at found
  | cons j rest ih =>
    intro i tests found
    have test := tests j (.head _)
    have start := firstPage_spec (regions j) c
    by_cases fit : fits j = true
    · rw [find?_cons_of_pos fit] at found
      cases found
      rw [test] at fit
      simp only [highCount, if_pos fit, firstPage_next start.1 start.2.1]
      generalize firstPage (regions j) c = p at *
      generalize (regions j).base + (regions j).length = top at *
      split_ifs with more
      · have cursor : p + (top - p) / 4096 * 4096 = p + 4096 + (top - (p + 4096)) / 4096 * 4096 := by
          omega
        rw [cursor]
        omega
      · have one : (top - p) / 4096 = 1 := by omega
        rw [one, one_mul, add_comm]
    · rw [find?_cons_of_neg fit] at found
      have inRest := ih (fun j h => tests j (.tail _ h)) found
      have later : c ≤ firstPage (regions i) c + 4096 := (firstPage_spec (regions i) c).2.2.trans (by omega)
      have still := firstPage_mono (regions j) later
      rw [test] at fit
      rw [highCount, if_neg fit, highCount, if_neg (by omega), inRest]

theorem highCount_none
    (spent : ∀ j ∈ is, ¬ firstPage (regions j) c + 4096 ≤ (regions j).base + (regions j).length) :
    highCount regions c is = 0 := by
  induction is with
  | nil => rfl
  | cons j rest ih =>
    rw [highCount, if_neg (spent j (.head _))]
    exact ih (fun j h => spent j (.tail _ h))

theorem highCount_le (bounds : ∀ j ∈ is, (regions j).base + (regions j).length ≤ 2 ^ 52) :
    ∀ c, highCount regions c is ≤ is.length * 0x10000000000 := by
  induction is with
  | nil => exact fun c => le_rfl
  | cons j rest ih =>
    intro c
    have ih := ih (fun j h => bounds j (.tail _ h))
    have bound := bounds j (.head _)
    have pages : ((regions j).base + (regions j).length - firstPage (regions j) c) / 4096 ≤
        0x10000000000 := by omega
    simp only [highCount, length_cons]
    rw [succ_mul, add_comm (rest.length * _)]
    split_ifs with fits
    · exact Nat.add_le_add pages (ih _)
    · exact Nat.le_add_left_of_le (ih c)

end High

theorem countHigh_eq (bound : r.base + r.length ≤ 2 ^ 52)
    (low : c ≤ 2 ^ 52) (room : total + 0x10000000000 < WORD) :
    countHigh r c total = if firstPage r c + 4096 ≤ r.base + r.length then
        (firstPage r c + (r.base + r.length - firstPage r c) / 4096 * 4096,
          total + (r.base + r.length - firstPage r c) / 4096)
      else (c, total) := by
  have word := WORD_eq
  have start : pageDown (wsub (wadd (max r.base c) PAGE_SIZE_U64) 1) = firstPage r c := by
    rw [wadd_of_lt (by simp only [PAGE_SIZE_U64]; omega), PAGE_SIZE_U64,
      wsub_of_le (by omega) (by omega), pageDown_eq (by omega), firstPage]
    rfl
  have near : firstPage r c ≤ 2 ^ 52 := firstPage_le (by decide) (by omega) low
  have stop : r.endAddr = r.base + r.length := wadd_of_lt (by omega)
  have next : wadd (firstPage r c) PAGE_SIZE_U64 = firstPage r c + 4096 :=
    wadd_of_lt (by simp only [PAGE_SIZE_U64]; omega)
  simp only [countHigh, start, next, stop]
  generalize r.base + r.length = top at *
  generalize firstPage r c = p at *
  split_ifs with fits
  · have pages : wsub top p / PAGE_SIZE_U64 = (top - p) / 4096 := by
      rw [wsub_of_le (by omega) (by omega), PAGE_SIZE_U64]
    have size : wmul ((top - p) / 4096) PAGE_SIZE_U64 = (top - p) / 4096 * 4096 :=
      mod_eq_of_lt (by simp only [PAGE_SIZE_U64]; omega)
    rw [pages, size, wadd_of_lt (by omega), wadd_of_lt (by omega)]
  · rfl

theorem foldl_countHigh (regions : Nat → MemRegion) (is : List Nat) :
    ∀ (c total : Nat), (∀ j ∈ is, (regions j).base + (regions j).length ≤ 2 ^ 52) → c ≤ 2 ^ 52 →
      total + is.length * 0x10000000000 < WORD →
      (is.foldl (fun x i => countHigh (regions i) x.1 x.2) (c, total)).2 =
        total + highCount regions c is := by
  induction is with
  | nil =>
    intro c total _ _ _
    rfl
  | cons j rest ih =>
    intro c total bounds low room
    have bound := bounds j (.head _)
    have boundRest : ∀ j ∈ rest, (regions j).base + (regions j).length ≤ 2 ^ 52 :=
      fun j h => bounds j (.tail _ h)
    rw [length_cons] at room
    have here : total + 0x10000000000 < WORD := lt_of_le_of_lt (by omega) room
    have later : ∀ n ≤ 0x10000000000, total + n + rest.length * 0x10000000000 < WORD :=
      fun n le => lt_of_le_of_lt (by omega) room
    rw [foldl_cons, countHigh_eq bound low here]
    simp only [highCount]
    split_ifs with fits
    · rw [ih _ _ boundRest (by omega) (later _ (by omega)), add_assoc]
    · exact ih _ _ boundRest low (later 0 (by omega))

theorem Physical.highPassFrames (wf : fa.Wf) (phys : fa.Physical) :
    fa.highPassFrames = highCount fa.regions fa.nextFree (List.range fa.regionCount) := by
  have bounded := wf.bounded
  have word := WORD_eq
  simp only [MAX_REGIONS] at bounded
  have fold := foldl_countHigh fa.regions (List.range fa.regionCount) fa.nextFree 0
    (fun j h => phys.region (mem_range.mp h)) phys.next (by rw [length_range]; omega)
  rw [zero_add] at fold
  exact fold

theorem Physical.lowPassFrames (wf : fa.Wf) (phys : fa.Physical) :
    fa.lowPassFrames = ∑ i ∈ Finset.range fa.regionCount, lowCount (fa.regions i) fa.floor (fa.lowCursor i) ∧
      fa.lowPassFrames ≤ 64 * 0x10000000000 := by
  have bounded := wf.bounded
  have word := WORD_eq
  simp only [MAX_REGIONS] at bounded
  have sums : ∀ n ≤ fa.regionCount, (List.range n).foldl (fun total i => wadd total (fa.countLow i)) 0 =
        ∑ i ∈ Finset.range n, lowCount (fa.regions i) fa.floor (fa.lowCursor i) ∧
      ∑ i ∈ Finset.range n, lowCount (fa.regions i) fa.floor (fa.lowCursor i) ≤ n * 0x10000000000 := by
    intro n
    induction n with
    | zero => simp
    | succ n ih =>
      intro below
      obtain ⟨sum, small⟩ := ih (by omega)
      have count := phys.countLow wf (show n < fa.regionCount by omega)
      have bound := phys.region (show n < fa.regionCount by omega)
      have step : lowCount (fa.regions n) fa.floor (fa.lowCursor n) ≤ 0x10000000000 := by
        rw [lowCount]
        omega
      rw [range_succ, foldl_append, sum, Finset.sum_range_succ]
      simp only [foldl_cons, foldl_nil, count]
      rw [wadd_of_lt (by omega)]
      omega
  obtain ⟨sum, small⟩ := sums fa.regionCount le_rfl
  rw [FrameAllocator.lowPassFrames, sum]
  exact ⟨rfl, small.trans (mul_le_mul_right _ bounded)⟩

theorem Physical.freeFramesCount (wf : fa.Wf) (phys : fa.Physical) :
    fa.freeFramesCount = fa.freeStack.length + highCount fa.regions fa.nextFree (List.range fa.regionCount) +
      ∑ i ∈ Finset.range fa.regionCount, lowCount (fa.regions i) fa.floor (fa.lowCursor i) := by
  obtain ⟨sum, low⟩ := phys.lowPassFrames wf
  have high := highCount_le fa.regions (fun j h => phys.region (mem_range.mp h)) fa.nextFree
  rw [length_range] at high
  have high := high.trans (mul_le_mul_right _ wf.bounded)
  -- the recycled frames are distinct and physical
  have stack : fa.freeStack.length ≤ 2 ^ 52 := by
    rw [← toFinset_card_of_nodup wf.stackNodup, ← Finset.card_range (2 ^ 52)]
    apply Finset.card_le_card
    intro p mem
    exact Finset.mem_range.mpr (wf.stackFrame p (mem_toFinset.mp mem)).2
  have word := WORD_eq
  simp only [MAX_REGIONS] at high
  rw [FrameAllocator.freeFramesCount, phys.highPassFrames wf, sum]
  rw [wadd_of_lt (a := fa.freeStack.length) (by omega), wadd_of_lt (by omega)]

/-- With a page-aligned floor the count is zero exactly when nothing is left, and
    every allocation lowers it by one. -/
theorem Allocates.count (h : fa.Allocates got fa')
    (wf : fa.Wf) (phys : fa.Physical) (wf' : fa'.Wf) (aligned : 4096 ∣ fa.floor) :
    (got = none → fa.freeFramesCount = 0) ∧
      ∀ p, got = some p → fa.freeFramesCount = fa'.freeFramesCount + 1 := by
  have phys' := (h.frame phys).1
  rw [phys.freeFramesCount wf, phys'.freeFramesCount wf']
  cases h with
  | stack top used =>
    refine ⟨by simp, fun p _ => ?_⟩
    rw [top, length_cons]
    dsimp only
    omega
  | @high i empty used found =>
    refine ⟨by simp, fun p _ => ?_⟩
    rw [highCount_take fa.regions (fun j mem => phys.highFits (mem_range.mp mem)) found]
    dsimp only
    omega
  | @low i empty used spent found =>
    refine ⟨by simp, fun p _ => ?_⟩
    have mem := mem_of_find?_eq_some found
    have fits := (phys.lowFits wf (mem_range.mp mem)).mp (find?_some found)
    have start := firstPage_spec (fa.regions i) (fa.lowCursor i)
    rw [mem_range, ← Finset.mem_range] at mem
    dsimp only
    rw [← Finset.add_sum_erase _ _ mem, ← Finset.add_sum_erase _ _ mem, update_self]
    have others : ∑ j ∈ (Finset.range fa.regionCount).erase i, lowCount (fa.regions j) fa.floor
        (update fa.lowCursor i (firstPage (fa.regions i) (fa.lowCursor i) + 4096) j) =
        ∑ j ∈ (Finset.range fa.regionCount).erase i, lowCount (fa.regions j) fa.floor (fa.lowCursor j) := by
      refine Finset.sum_congr rfl fun j other => ?_
      rw [update_of_ne (Finset.ne_of_mem_erase other)]
    have here : lowCount (fa.regions i) fa.floor (fa.lowCursor i) = lowCount (fa.regions i) fa.floor
        (firstPage (fa.regions i) (fa.lowCursor i) + 4096) + 1 := by
      rw [lowCount, lowCount, firstPage_next start.1 start.2.1]
      omega
    omega
  | nothing empty spent drained =>
    refine ⟨fun _ => ?_, by simp⟩
    have high : highCount fa.regions fa.nextFree (List.range fa.regionCount) = 0 := by
      apply highCount_none
      intro j mem
      rw [← phys.highFits (mem_range.mp mem)]
      exact find?_eq_none.mp spent j mem
    have low : ∑ i ∈ Finset.range fa.regionCount, lowCount (fa.regions i) fa.floor (fa.lowCursor i) = 0 := by
      apply Finset.sum_eq_zero
      intro j mem
      have inside := Finset.mem_range.mp mem
      have unfit := find?_eq_none.mp drained j (mem_range.mpr inside)
      rw [phys.lowFits wf inside] at unfit
      rw [lowCount]
      have start := firstPage_spec (fa.regions j) (fa.lowCursor j)
      omega
    rw [empty, high, low]
    rfl

theorem exists_drain_count (n : Nat) : ∀ {fa : FrameAllocator}, fa.Wf → fa.Physical → 4096 ∣ fa.floor →
    fa.freeFramesCount < n → ∃ frames, drain n fa = some frames ∧ frames.length = fa.freeFramesCount := by
  induction n with
  | zero =>
    intro fa _ _ _ fewer
    omega
  | succ n ih =>
    intro fa wf phys aligned fewer
    obtain ⟨got, fa', ran, alloc⟩ := wf.allocates phys
    cases got with
    | none =>
      cases allocFrame_empty ran
      exact ⟨[], drain_done ran n, ((alloc.count wf phys wf aligned).1 rfl).symm⟩
    | some p =>
      have wf' := (wf.allocFrame_some ran).wf
      have drop := (alloc.count wf phys wf' aligned).2 p rfl
      obtain ⟨phys', floor⟩ := alloc.frame phys
      obtain ⟨frames, rest, length⟩ := ih wf' phys' (floor ▸ aligned) (by omega)
      exact ⟨p :: frames, drain_more ran rest, by rw [length_cons, length, drop]⟩

/-- In every state of a run from the plan whose floor is page aligned and whose
    regions and bump pointer are physical addresses, `alloc_frame` succeeds exactly
    as often as `free_frames_count` says. -/
theorem freeFramesCount_exact (fa : FrameAllocator) (input : AllocPlanInput)
    (disjoint : (input.memoryMap.filter (·.isUsable)).Pairwise (fun a b => Disjoint a.span b.span))
    (fits : ∀ e ∈ input.memoryMap, e.base + e.length + PAGE_SIZE_U64 < WORD)
    {ops : List Op} {s : Sys} (run : exec step ops ⟨fa.planRegions input, ∅⟩ = some s)
    (phys : s.fa.Physical) (aligned : PAGE_SIZE_U64 ∣ s.fa.floor) :
    ∃ frames, drain (s.fa.freeFramesCount + 1) s.fa = some frames ∧
      frames.length = s.fa.freeFramesCount := by
  have start := inv_of_wf (seeding_planRegions fa disjoint fits).wf
  have inv := invariant Sys.Inv step_inv start run
  exact exists_drain_count _ inv.wf phys aligned (Nat.lt_succ_self _)

theorem freeFramesCount_smallPlan :
    ∃ s frames, exec step smallRun ⟨FRAME_ALLOCATOR.planRegions smallPlan, ∅⟩ = some s ∧
      drain (s.fa.freeFramesCount + 1) s.fa = some frames ∧ frames.length = s.fa.freeFramesCount := by
  obtain ⟨s, run, regions, next, aligned⟩ : ∃ s,
      exec step smallRun ⟨FRAME_ALLOCATOR.planRegions smallPlan, ∅⟩ = some s ∧
      (∀ e ∈ s.fa.live, e.1.base + e.1.length ≤ 2 ^ 52) ∧ s.fa.nextFree ≤ 2 ^ 52 ∧ PAGE_SIZE_U64 ∣ s.fa.floor :=
    exists_of_any (by decide +kernel)
  obtain ⟨frames, drained, length⟩ := freeFramesCount_exact FRAME_ALLOCATOR smallPlan smallPlan_disjoint (by decide)
    run ⟨regions, next⟩ aligned
  exact ⟨s, frames, run, drained, length⟩

/-- A kernel entry that ends inside a page puts the floor there: the page is served
    by the low pass but not counted. -/
theorem freeFramesCount_misses_page :
    drain 3 (FrameAllocator.new [⟨0x2000, 0x2000, 0⟩, ⟨0x1800, 0x1000, 6⟩]) = some [0x3000, 0x2000] ∧
      (FrameAllocator.new [⟨0x2000, 0x2000, 0⟩, ⟨0x1800, 0x1000, 6⟩]).freeFramesCount = 1 := by
  decide +kernel

/-! ## Which frames are served -/

/-- The region has a whole page at or above the floor. -/
def Above (floor : Nat) (r : MemRegion) : Prop := firstPage r floor + 4096 ≤ r.base + r.length

instance (floor : Nat) (r : MemRegion) : Decidable (Above floor r) := Nat.decLe _ _

/-- The regions with a page above the floor are listed in ascending order. -/
def Ascending (fa : FrameAllocator) : Prop :=
  fa.live.Pairwise fun a b => a.1.base + a.1.length ≤ b.1.base ∨ ¬ Above fa.floor a.1 ∨ ¬ Above fa.floor b.1

theorem Allocates.avail (h : fa.Allocates (some p) fa')
    (wf : fa.Wf) (phys : fa.Physical) (ascending : fa.Ascending) : fa.avail \ {p} ⊆ fa'.avail := by
  rintro q ⟨free, other⟩
  cases h with
  | stack top used =>
    rcases free with stack | reach
    · rw [top] at stack
      rcases mem_cons.mp stack with same | stack
      · exact absurd same other
      · exact .inl stack
    · exact .inr reach
  | @high i empty used found =>
    obtain ⟨fits, mem, earlier⟩ := find?_range_eq_some.mp found
    rw [phys.highFits (mem_range.mp mem)] at fits
    rcases free with stack | ⟨page, above, e, entry, holds⟩ | low
    · simp [empty] at stack
    · refine .inr (.inl ⟨page, ?_, e, entry, holds⟩)
      obtain ⟨j, inside, rfl⟩ := mem_slots.mp entry
      have reach : firstPage (fa.regions j) _ ≤ _ := firstPage_le page holds.1 above
      have floor := wf.floorLe
      have next := firstPage_spec (fa.regions i) fa.nextFree
      simp only [Holds, PAGE_SIZE_U64, Set.mem_singleton_iff] at holds other page ⊢
      rcases lt_trichotomy j i with before | rfl | after
      · have unfit := earlier j before
        rw [Bool.not_eq_true', ← Bool.not_eq_true, phys.highFits inside] at unfit
        omega
      · omega
      · have aboveI := firstPage_mono (fa.regions i) floor
        have aboveJ := firstPage_mono (fa.regions j) floor
        have order := live_pairwise.mp ascending i j after inside
        simp only [Above] at order
        omega
    · exact .inr (.inr low)
  | @low i empty used spent found =>
    rcases free with stack | ⟨page, above, e, entry, holds⟩ | ⟨page, below, e, entry, holds, cursor⟩
    · simp [empty] at stack
    · obtain ⟨j, inside, rfl⟩ := mem_slots.mp entry
      exact .inr (.inl ⟨page, above, _, mem_slots.mpr ⟨j, inside, rfl⟩, holds⟩)
    · obtain ⟨j, inside, rfl⟩ := mem_slots.mp entry
      refine .inr (.inr ⟨page, below, _, mem_slots.mpr ⟨j, inside, rfl⟩, holds, ?_⟩)
      dsimp only
      rcases eq_or_ne j i with rfl | different
      · have reach : firstPage (fa.regions j) (fa.lowCursor j) ≤ _ := firstPage_le page holds.1 cursor
        have aligned := (firstPage_spec (fa.regions j) (fa.lowCursor j)).1
        simp only [PAGE_SIZE_U64, Set.mem_singleton_iff] at page other
        rw [update_self]
        omega
      · rw [update_of_ne different]
        exact cursor

theorem Wf.avail_empty (wf : fa.Wf) (phys : fa.Physical)
    (h : fa.Allocates none fa') (p : Nat) : p ∉ fa.avail := by
  cases h with
  | nothing empty spent drained =>
    rintro (stack | ⟨page, above, e, entry, holds⟩ | ⟨page, below, e, entry, holds, cursor⟩)
    · simp [empty] at stack
    · obtain ⟨j, inside, rfl⟩ := mem_slots.mp entry
      have unfit := find?_eq_none.mp spent j (mem_range.mpr inside)
      rw [phys.highFits inside] at unfit
      have reach : firstPage (fa.regions j) _ ≤ _ := firstPage_le page holds.1 above
      simp only [Holds, PAGE_SIZE_U64] at holds
      omega
    · obtain ⟨j, inside, rfl⟩ := mem_slots.mp entry
      have unfit := find?_eq_none.mp drained j (mem_range.mpr inside)
      rw [phys.lowFits wf inside] at unfit
      have reach : firstPage (fa.regions j) (fa.lowCursor j) ≤ _ := firstPage_le page holds.1 cursor
      simp only [Holds, PAGE_SIZE_U64] at holds
      omega

theorem Allocates.ascending (h : fa.Allocates got fa') (ascending : fa.Ascending) : fa'.Ascending := by
  cases h with
  | low _ _ _ _ =>
    have pairs := live_pairwise.mp ascending
    exact live_pairwise.mpr pairs
  | _ => exact ascending

theorem held_of_avail (free : p ∈ fa.avail) (fresh : p ∉ fa.freeStack) :
    PAGE_SIZE_U64 ∣ p ∧ ∃ e ∈ fa.live, Holds e.1 p := by
  rcases free.resolve_left fresh with ⟨page, _, held⟩ | ⟨page, _, e, entry, holds, _⟩
  · exact ⟨page, held⟩
  · exact ⟨page, e, entry, holds⟩

theorem Physical.avail_finite (wf : fa.Wf) (phys : fa.Physical) : fa.avail.Finite := by
  refine (Set.finite_Iio (2 ^ 52)).subset ?_
  intro p free
  by_cases stack : p ∈ fa.freeStack
  · exact (wf.stackFrame p stack).2
  · obtain ⟨-, e, entry, holds⟩ := held_of_avail free stack
    have bound := phys.regions e entry
    simp only [Holds, PAGE_SIZE_U64, Set.mem_Iio] at holds ⊢
    omega

theorem exists_drain_avail (n : Nat) : ∀ {fa : FrameAllocator}, fa.Wf → fa.Physical → fa.Ascending →
    fa.avail.ncard < n →
    ∃ frames, drain n fa = some frames ∧ frames.Nodup ∧ ∀ p, p ∈ frames ↔ p ∈ fa.avail := by
  induction n with
  | zero =>
    intro fa _ _ _ fewer
    omega
  | succ n ih =>
    intro fa wf phys ascending fewer
    obtain ⟨got, fa', ran, alloc⟩ := wf.allocates phys
    cases got with
    | none =>
      refine ⟨[], drain_done ran n, nodup_nil, fun p => ?_⟩
      simp [wf.avail_empty phys alloc p]
    | some p =>
      have took := wf.allocFrame_some ran
      have left : fa'.avail = fa.avail \ {p} :=
        Set.Subset.antisymm took.sub (alloc.avail wf phys ascending)
      have less := Set.ncard_sdiff_singleton_lt_of_mem took.mem (phys.avail_finite wf)
      rw [← left] at less
      obtain ⟨frames, rest, nodup, same⟩ := ih took.wf (alloc.frame phys).1 (alloc.ascending ascending)
        (by omega)
      refine ⟨p :: frames, drain_more ran rest, nodup_cons.mpr ⟨?_, nodup⟩, fun q => ?_⟩
      · rw [same, left]
        exact fun mem => mem.2 rfl
      · rw [mem_cons, same, left, Set.mem_sdiff, Set.mem_singleton_iff]
        by_cases here : q = p
        · simp [here, took.mem]
        · simp [here]

theorem planRegions_avail (fa : FrameAllocator) {input : AllocPlanInput}
    (disjoint : (input.memoryMap.filter (·.isUsable)).Pairwise (fun a b => Disjoint a.span b.span))
    (fits : ∀ e ∈ input.memoryMap, e.base + e.length + PAGE_SIZE_U64 < WORD) (p : Nat) :
    p ∈ (fa.planRegions input).avail ↔
      PAGE_SIZE_U64 ∣ p ∧ ∃ e ∈ (fa.planRegions input).live, Holds e.1 p := by
  have filled := filling_planRegions fa disjoint fits
  have reserved := kept_by_plan (P := fun fa => fa.Seeding ∧ ∀ e ∈ fa.live, e.2 ≤ e.1.base) (by
      rintro fa base length ⟨ok, fresh⟩
      refine ⟨ok.reserveRegion base length, ?_⟩
      rcases Nat.eq_zero_or_pos length with rfl | pos
      · exact fresh
      · rw [live_reserveRegion fa ok.wf.bounded base pos]
        intro e' mem
        obtain ⟨e, old, piece⟩ := mem_carve _ (fun e mem => by have := (ok.wf.sane e mem).region; omega) mem
        have := fresh e old
        have := piece.low
        rcases piece.moved with same | ⟨same, start⟩ <;> omega) input ⟨filled.toSeeding, by
      intro e mem
      obtain ⟨i, _, rfl⟩ := mem_slots.mp mem
      exact (filled.cursor i).trans_le (zero_le _)⟩
  have empty := (seeding_planRegions fa disjoint fits).stack
  have fresh : ∀ e ∈ (fa.planRegions input).live, e.2 ≤ e.1.base := reserved.2
  have level : (fa.planRegions input).nextFree = (fa.planRegions input).floor := rfl
  refine ⟨fun free => held_of_avail free (by simp [empty]), ?_⟩
  rintro ⟨page, e, mem, holds⟩
  rcases lt_or_ge p (fa.planRegions input).floor with below | above
  · exact .inr (.inr ⟨page, below, e, mem, holds, (fresh e mem).trans holds.1⟩)
  · exact .inr (.inl ⟨page, level ▸ above, e, mem, holds⟩)

/-- A page above the floor that no pass reaches: a region before its own has a page above
    it. -/
structure Missed (fa : FrameAllocator) (p : Nat) : Prop where
  stack : p ∉ fa.freeStack
  floor : fa.floor ≤ p
  passed : ∃ i j, i < j ∧ j < fa.regionCount ∧ Holds (fa.regions j) p ∧
    ∃ q, 4096 ∣ q ∧ p < q ∧ Holds (fa.regions i) q

theorem Allocates.missed (h : fa.Allocates (some q) fa') (wf : fa.Wf) (phys : fa.Physical) (missed : fa.Missed p) :
    q ≠ p ∧ fa'.Missed p := by
  cases h with
  | stack top used =>
    have stack := missed.stack
    rw [top, mem_cons, not_or] at stack
    exact ⟨Ne.symm stack.1, stack.2, missed.floor, missed.passed⟩
  | @high k empty used found =>
    refine ⟨?_, missed.stack, missed.floor, missed.passed⟩
    rintro rfl
    obtain ⟨i, j, order, inside, here, q, page, above, there⟩ := missed.passed
    obtain ⟨fits, mem, earlier⟩ := find?_range_eq_some.mp found
    have next := (firstPage_spec (fa.regions k) fa.nextFree).2
    rw [phys.highFits (mem_range.mp mem)] at fits
    have pairs := live_pairwise.mp wf.separate
    simp only [Holds, PAGE_SIZE_U64] at here there
    -- the page is in one region only, and the region before it still has a page
    obtain rfl : k = j := by
      rcases lt_trichotomy k j with less | same | more
      · have apart := pairs k j less inside
        simp only [Separate] at apart
        omega
      · exact same
      · have apart := pairs j k more (mem_range.mp mem)
        simp only [Separate] at apart
        omega
    have unfit := earlier i order
    rw [Bool.not_eq_true', ← Bool.not_eq_true, phys.highFits (order.trans inside)] at unfit
    have reach : firstPage (fa.regions i) fa.nextFree ≤ q := firstPage_le page there.1 (by omega)
    omega
  | @low k empty used spent found =>
    refine ⟨?_, missed.stack, missed.floor, missed.passed⟩
    have fits := (phys.lowFits wf (mem_range.mp (mem_of_find?_eq_some found))).mp (find?_some found)
    have floor := missed.floor
    omega

theorem drain_missed (fuel : Nat) : ∀ {fa : FrameAllocator} {frames : List Nat}, fa.Wf → fa.Physical → fa.Missed p →
    drain fuel fa = some frames → p ∉ frames := by
  induction fuel with
  | zero =>
    intro fa frames _ _ _ drained
    cases drained
  | succ fuel ih =>
    intro fa frames wf phys missed drained
    obtain ⟨got, fa', ran, alloc⟩ := wf.allocates phys
    simp only [drain, ran] at drained
    cases got with
    | none =>
      cases drained
      exact not_mem_nil
    | some q =>
      obtain ⟨rest, more, rfl⟩ := map_eq_some_iff.mp drained
      obtain ⟨other, missed'⟩ := alloc.missed wf phys missed
      rw [mem_cons, not_or]
      exact ⟨other.symm, ih (wf.allocFrame_some ran).wf (alloc.frame phys).1 missed' more⟩

theorem exists_missed (wf : fa.Wf) (empty : fa.freeStack = []) (unsorted : ¬ fa.Ascending) :
    ∃ p, fa.Missed p ∧ PAGE_SIZE_U64 ∣ p ∧ ∃ e ∈ fa.live, Holds e.1 p := by
  rw [Ascending, live_pairwise] at unsorted
  push Not at unsorted
  obtain ⟨i, j, order, inside, unordered, aboveI, aboveJ⟩ := unsorted
  have apart := live_pairwise.mp wf.separate i j order inside
  have first := firstPage_spec (fa.regions i) fa.floor
  have second := firstPage_spec (fa.regions j) fa.floor
  simp only [Separate, Above] at apart unordered aboveI aboveJ
  have holds : Holds (fa.regions j) (firstPage (fa.regions j) fa.floor) := ⟨second.2.1, aboveJ⟩
  exact ⟨_, ⟨by simp [empty], second.2.2, i, j, order, inside, holds, _, first.1, by omega, first.2.1, aboveI⟩,
    second.1, _, live_mem inside, holds⟩

/-- Draining the allocator yields every page of a live region, each once, if and only if the
    planned regions with a page above the floor are listed in ascending order. -/
theorem drain_yields_every_page_iff (fa : FrameAllocator) (input : AllocPlanInput)
    (disjoint : (input.memoryMap.filter (·.isUsable)).Pairwise (fun a b => Disjoint a.span b.span))
    (fits : ∀ e ∈ input.memoryMap, e.base + e.length + PAGE_SIZE_U64 < WORD)
    (phys : (fa.planRegions input).Physical) :
    (∃ fuel frames, drain fuel (fa.planRegions input) = some frames ∧ frames.Nodup ∧
      ∀ p, p ∈ frames ↔ PAGE_SIZE_U64 ∣ p ∧ ∃ e ∈ (fa.planRegions input).live, Holds e.1 p) ↔
    (fa.planRegions input).Ascending := by
  have seeded := seeding_planRegions fa disjoint fits
  constructor
  · rintro ⟨fuel, frames, drained, -, same⟩
    by_contra unsorted
    obtain ⟨p, missed, held⟩ := exists_missed seeded.wf seeded.stack unsorted
    exact drain_missed fuel seeded.wf phys missed drained ((same p).mpr held)
  · intro ascending
    obtain ⟨frames, drained, nodup, same⟩ := exists_drain_avail _ seeded.wf phys ascending (Nat.lt_succ_self _)
    exact ⟨_, frames, drained, nodup, fun p => (same p).trans (planRegions_avail fa disjoint fits p)⟩

theorem drain_smallPlan : ∃ fuel frames, drain fuel (FRAME_ALLOCATOR.planRegions smallPlan) = some frames ∧
    frames.Nodup ∧ ∀ p, p ∈ frames ↔
      PAGE_SIZE_U64 ∣ p ∧ ∃ e ∈ (FRAME_ALLOCATOR.planRegions smallPlan).live, Holds e.1 p :=
  (drain_yields_every_page_iff FRAME_ALLOCATOR smallPlan smallPlan_disjoint (by decide)
    ⟨by decide +kernel, by decide +kernel⟩).mpr (by unfold Ascending; decide +kernel)

/-- Three regions listed out of order: the bump pointer passes the third one. -/
theorem drain_loses_page :
    drain 3 (FrameAllocator.new [⟨0x1000, 0x1000, 0⟩, ⟨0x5000, 0x1000, 0⟩, ⟨0x3000, 0x1000, 0⟩]) =
        some [0x1000, 0x5000] ∧
      ∃ e ∈ (FrameAllocator.new [⟨0x1000, 0x1000, 0⟩, ⟨0x5000, 0x1000, 0⟩, ⟨0x3000, 0x1000, 0⟩]).live,
        Holds e.1 0x3000 := by
  decide +kernel

end Zenus.Mem.FrameAllocator
