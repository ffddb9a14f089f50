import Zenus.Mem.FramePool

/-! # The bytes a reservation takes out

`reserve_region` rounds its base down before it adds the length, so the range it
carves out can end before the requested one does.  Which bytes are live afterwards
is said exactly; the boot stack, reserved through a mask that only clears bit 12,
is then safe as long as that bit was clear to begin with.
-/

namespace Zenus.Mem.FrameAllocator

open Lib.Word Lib.Run FrameAllocator Nat

def Spans (r : MemRegion) (b : Nat) : Prop := r.base ≤ b ∧ b < r.base + r.length

def Covers (l : List Entry) (b : Nat) : Prop := ∃ e ∈ l, Spans e.1 b

instance (r : MemRegion) (b : Nat) : Decidable (Spans r b) := inferInstanceAs (Decidable (_ ∧ _))

instance (l : List Entry) (b : Nat) : Decidable (Covers l b) :=
  inferInstanceAs (Decidable (∃ e ∈ l, _))

def Apart (a b : Entry) : Prop := ∀ x, Spans a.1 x → ¬ Spans b.1 x

theorem covers_cons {e : Entry} {l : List Entry} {b : Nat} :
    Covers (e :: l) b ↔ Spans e.1 b ∨ Covers l b := by
  simp [Covers]

theorem covers_of_carve {lo hi b : Nat} (room : Nat) {l : List Entry}
    (fits : ∀ e ∈ l, e.1.base + e.1.length < WORD) (covered : Covers (carve lo hi room l) b) :
    Covers l b ∧ ¬ (lo ≤ b ∧ b < hi) := by
  obtain ⟨e', mem, low, high⟩ := covered
  obtain ⟨e, old, piece⟩ := mem_carve room fits mem
  have := piece.outside
  exact ⟨⟨e, old, piece.low.trans low, high.trans_le piece.high⟩, by omega⟩

/-- With room for the one split disjoint regions can need, carving keeps every
    byte outside the range. -/
theorem carve_covers {lo hi b : Nat} (range : lo < hi) (outside : ¬ (lo ≤ b ∧ b < hi)) :
    ∀ (room : Nat) {l : List Entry}, (∀ e ∈ l, e.1.base + e.1.length < WORD) → l.Pairwise Apart →
      (room = 0 → ∀ e ∈ l, ¬ (e.1.base < lo ∧ hi < e.1.base + e.1.length)) →
      Covers l b → Covers (carve lo hi room l) b := by
  intro room l
  induction l generalizing room with
  | nil =>
    rintro _ _ _ ⟨e, mem, _⟩
    simp at mem
  | cons e rest ih =>
    intro fits apart enough covered
    have end_ : e.1.endAddr = e.1.base + e.1.length := wadd_of_lt (fits e (.head _))
    obtain ⟨apartHead, apartRest⟩ := List.pairwise_cons.mp apart
    have fitsRest : ∀ e ∈ rest, e.1.base + e.1.length < WORD :=
      fun e h => fits e (.tail _ h)
    have same := ih room fitsRest apartRest
      (fun bare e h => enough bare e (.tail _ h))
    rw [covers_cons] at covered
    simp only [carve]
    split_ifs with miss whole start tail room'
    all_goals simp only [Misses, not_or, not_le, ge_iff_le, end_] at *
    · exact covers_cons.mpr (covered.imp_right same)
    · rcases covered with now | covered
      · simp only [Spans] at now
        omega
      · exact ih (room + 1) fitsRest apartRest (by omega) covered
    · refine covers_cons.mpr (covered.imp (fun now => ?_) same)
      simp only [Spans] at now ⊢
      omega
    · refine covers_cons.mpr (covered.imp (fun now => ?_) same)
      simp only [Spans] at now ⊢
      omega
    · -- the split region holds all of the range, so no later one is split
      have alone : ∀ e' ∈ rest, ¬ (e'.1.base < lo ∧ hi < e'.1.base + e'.1.length) := by
        intro e' mem split
        refine apartHead e' mem lo ?_ ?_
        · simp only [Spans]
          omega
        · simp only [Spans]
          omega
      rw [covers_cons, covers_cons, ← or_assoc]
      refine covered.imp (fun now => ?_) (ih _ fitsRest apartRest (fun _ => alone))
      simp only [Spans] at now ⊢
      omega
    · exact absurd ⟨start, tail⟩ (enough (Nat.eq_zero_of_not_pos room') e (.head _))

variable (fa : FrameAllocator) {length x m phys base b : Nat} {input : AllocPlanInput}

theorem live_fixNext (lo hi : Nat) : (fa.fixNext lo hi).live = fa.live := by
  unfold fixNext
  split_ifs <;> rfl

theorem live_reserveRegion (bounded : fa.regionCount ≤ MAX_REGIONS) (base : Nat) (pos : 0 < length) :
    (fa.reserveRegion base length).live =
      carve (pageDown base) (reserveEnd base length) (MAX_REGIONS - fa.regionCount) fa.live := by
  rw [← live_reserve fa bounded, reserveRegion, if_neg (by omega), live_fixNext]

/-- Where the reservation ends: the length is rounded up, but from the base that
    was rounded down first. -/
theorem reserveEnd_eq (base length : Nat) (small : base + length + 4095 < WORD) :
    reserveEnd base length = (base / 4096 * 4096 + length + 4095) / 4096 * 4096 := by
  have low : pageDown base = base / 4096 * 4096 := pageDown_eq (by omega)
  have sum : satAdd (base / 4096 * 4096) length = base / 4096 * 4096 + length := by
    rw [satAdd]
    omega
  have up : wsub (wadd (base / 4096 * 4096 + length) PAGE_SIZE_U64) 1 =
      base / 4096 * 4096 + length + 4095 := by
    simp only [wsub, wadd, PAGE_SIZE_U64]
    rw [WORD_eq] at *
    omega
  rw [reserveEnd, low, sum, up, pageDown_eq (by omega)]

/-- `reserve_region` takes every byte it was asked for, keeps every byte outside
    the whole pages around them, and makes no byte live. -/
structure ReservesExactly (fa : FrameAllocator) (base length : Nat) : Prop where
  taken : ∀ b, base ≤ b → b < base + length → ¬ Covers (fa.reserveRegion base length).live b
  kept : ∀ b, (b < base / 4096 * 4096 ∨ (base + length + 4095) / 4096 * 4096 ≤ b) →
    Covers fa.live b → Covers (fa.reserveRegion base length).live b
  created : ∀ b, Covers (fa.reserveRegion base length).live b → Covers fa.live b

/-- A reservation is exact unless bytes between the end it computes and the end of
    the requested range were live. -/
theorem reservesExactly_iff (fa : FrameAllocator) {base length : Nat}
    (room : fa.regionCount < MAX_REGIONS) (fits : ∀ e ∈ fa.live, e.1.base + e.1.length < WORD)
    (disjoint : fa.live.Pairwise Apart) (pos : 0 < length) (small : base + length + 4095 < WORD) :
    fa.ReservesExactly base length ↔
      ∀ b, reserveEnd base length ≤ b → b < base + length → ¬ Covers fa.live b := by
  have end_ := reserveEnd_eq base length small
  have low : pageDown base = base / 4096 * 4096 := pageDown_eq (by omega)
  have shape := live_reserveRegion fa (le_of_lt room) base pos
  have keeps : ∀ b, ¬ (pageDown base ≤ b ∧ b < reserveEnd base length) → Covers fa.live b →
      Covers (fa.reserveRegion base length).live b := by
    intro b outside covered
    rw [shape]
    exact carve_covers (by omega) outside _ fits disjoint (by omega) covered
  constructor
  · intro exact_ b past inside covered
    exact exact_.taken b (by omega) inside (keeps b (by omega) covered)
  · intro dead
    refine ⟨?_, fun b outside => keeps b (by omega), ?_⟩
    · intro b above inside covered
      rw [shape] at covered
      obtain ⟨old, outside⟩ := covers_of_carve _ fits covered
      exact dead b (by omega) inside old
    · intro b covered
      rw [shape] at covered
      exact (covers_of_carve _ fits covered).1

theorem reservesExactly_onePage :
    (FrameAllocator.new [⟨0, 0x10000, 0⟩]).ReservesExactly 0x1800 0x800 := by
  refine (reservesExactly_iff _ (by decide) (by decide +kernel) ?_ (by decide) (by decide)).mpr ?_
  · have single : (new [⟨0, 0x10000, 0⟩]).live = [(⟨0, 0x10000⟩, 0)] := by decide
    exact List.pairwise_singleton _ _
  · have end_ : reserveEnd 0x1800 0x800 = 0x2000 := by decide +kernel
    intro b past inside
    omega

/-- Reserving `[0x1800, 0x2800)` leaves the bytes from `0x2000` on live. -/
theorem reserveRegion_stops_early :
    ¬ (FrameAllocator.new [⟨0, 0x10000, 0⟩]).ReservesExactly 0x1800 0x1000 := by
  intro exact_
  have live : Covers ((new [⟨0, 0x10000, 0⟩]).reserveRegion 0x1800 0x1000).live
      0x2000 := by decide +kernel
  exact exact_.taken 0x2000 (by decide) (by decide) live

/-! ## The boot stack -/

theorem and_bnot_of_and_eq_zero (hx : x < WORD) (hm : m < WORD) (clear : x &&& m = 0) : x &&& bnot m = x := by
  apply eq_of_testBit_eq
  intro i
  have bit : (x &&& m).testBit i = false := by rw [clear, zero_testBit]
  rw [Nat.testBit_and] at bit
  rw [Nat.testBit_and, bnot, Nat.sub_sub, Nat.add_comm 1 m, WORD, Nat.testBit_two_pow_sub_succ hm]
  cases set : x.testBit i with
  | false => rfl
  | true =>
    have inside : i < 64 := by
      by_contra above
      rw [Nat.testBit_lt_two_pow (hx.trans_le (Nat.pow_le_pow_right (by decide) (by omega)))] at set
      cases set
    rw [set, Bool.true_and] at bit
    simp [inside, bit]

/-- Where the boot stack's reservation starts when bit 12 of the stack pointer
    is clear: the mask then changes nothing. -/
theorem stackBase_eq (above : BOOT_STACK_RESERVE ≤ phys) (small : phys < WORD)
    (clear : phys &&& PAGE_SIZE_U64 = 0) :
    (phys - BOOT_STACK_RESERVE) &&& bnot PAGE_SIZE_U64 = phys - BOOT_STACK_RESERVE := by
  have bit : ∀ x, x &&& PAGE_SIZE_U64 = 0 ↔ x / 4096 % 2 = 0 := by
    intro x
    rw [show PAGE_SIZE_U64 = 2 ^ 12 from rfl, and_two_pow, testBit_eq_decide_div_mod_eq]
    simp
  apply and_bnot_of_and_eq_zero (by omega) (by decide)
  rw [bit] at clear ⊢
  simp only [BOOT_STACK_RESERVE] at above ⊢
  omega

theorem Seeding.reserveKernel_last {fa : FrameAllocator} (ok : fa.Seeding) (stack : input.bootStackPhys ≠ 0) :
    ∃ before : FrameAllocator, before.Seeding ∧ fa.reserveKernel input =
      before.reserveRegion ((input.bootStackPhys - BOOT_STACK_RESERVE) &&& bnot PAGE_SIZE_U64)
        (BOOT_STACK_RESERVE + PAGE_SIZE_U64) := by
  unfold reserveKernel
  split_ifs
  · exact ⟨_, ok.reserveRegion _ _, rfl⟩
  · exact ⟨_, ok, rfl⟩

theorem planRegions_stack_clear
    (disjoint : (input.memoryMap.filter (·.isUsable)).Pairwise (fun a b => Disjoint a.span b.span))
    (fits : ∀ e ∈ input.memoryMap, e.base + e.length + PAGE_SIZE_U64 < WORD) (stack : input.bootStackPhys ≠ 0)
    (start : (input.bootStackPhys - BOOT_STACK_RESERVE) &&& bnot PAGE_SIZE_U64 = base)
    (low : pageDown base ≤ b) (high : b < reserveEnd base (BOOT_STACK_RESERVE + PAGE_SIZE_U64)) :
    ¬ Covers (fa.planRegions input).live b := by
  have filled := filling_planRegions fa disjoint fits
  have reserved := kept_by_reserveUnusable (fun _ _ _ ok => ok.reserveRegion _ _)
    input.memoryMap filled.toSeeding
  intro covered
  change Covers (reserveKernel _ input).live b at covered
  obtain ⟨before, ok, last⟩ := reserved.reserveKernel_last stack
  rw [last, start, live_reserveRegion _ ok.wf.bounded _ (by decide)] at covered
  have ends : ∀ e ∈ before.live, e.1.base + e.1.length < WORD := by
    intro e mem
    have := (ok.wf.sane e mem).region
    omega
  exact (covers_of_carve _ ends covered).2 ⟨low, high⟩

/-- When bit 12 of the boot stack pointer is clear, no run from the plan ever hands
    out a frame of the 512 KiB below the pointer or the page that holds it. -/
theorem bootStack_never_served (fa : FrameAllocator) (input : AllocPlanInput)
    (disjoint : (input.memoryMap.filter (·.isUsable)).Pairwise (fun a b => Disjoint a.span b.span))
    (fits : ∀ e ∈ input.memoryMap, e.base + e.length + PAGE_SIZE_U64 < WORD)
    (above : BOOT_STACK_RESERVE ≤ input.bootStackPhys)
    (clear : input.bootStackPhys &&& PAGE_SIZE_U64 = 0)
    {ops : List Op} {s : Sys} (run : exec step ops ⟨fa.planRegions input, ∅⟩ = some s)
    {p : Nat} {fa' : FrameAllocator} (served : s.fa.allocFrame = some (some p, fa')) :
    p + PAGE_SIZE_U64 ≤ input.bootStackPhys - BOOT_STACK_RESERVE ∨ input.bootStackPhys < p := by
  have word := WORD_eq
  have reserve : BOOT_STACK_RESERVE = 524288 := rfl
  have page : PAGE_SIZE_U64 = 4096 := rfl
  have ⟨wf, fresh⟩ := seeding_planRegions fa disjoint fits
  -- frames lie below 2 ^ 52, so only a lower stack pointer matters
  by_cases low : input.bootStackPhys < 2 ^ 52 + BOOT_STACK_RESERVE
  · have start := stackBase_eq above (by omega) clear
    have down : pageDown (input.bootStackPhys - BOOT_STACK_RESERVE) =
        (input.bootStackPhys - BOOT_STACK_RESERVE) / 4096 * 4096 := pageDown_eq (by omega)
    have end_ := reserveEnd_eq (input.bootStackPhys - BOOT_STACK_RESERVE)
      (BOOT_STACK_RESERVE + PAGE_SIZE_U64) (by omega)
    have apart : ∀ q, 4096 ∣ q → Covers (fa.planRegions input).live q →
        q + PAGE_SIZE_U64 ≤ input.bootStackPhys - BOOT_STACK_RESERVE ∨ input.bootStackPhys < q := by
      intro q aligned covered
      by_contra overlap
      exact planRegions_stack_clear fa disjoint fits (by omega) start (by omega) (by omega) covered
    have holds : ∀ q, ∀ e ∈ (fa.planRegions input).live, Holds e.1 q →
        Covers (fa.planRegions input).live q := by
      intro q e mem inside
      refine ⟨e, mem, ?_⟩
      simp only [Holds, Spans] at inside ⊢
      omega
    have planned : ∀ q ∈ (fa.planRegions input).avail,
        q + PAGE_SIZE_U64 ≤ input.bootStackPhys - BOOT_STACK_RESERVE ∨ input.bootStackPhys < q := by
      rintro q (stack | ⟨aligned, _, e, mem, inside⟩ | ⟨aligned, _, e, mem, inside, _⟩)
      · rw [fresh] at stack
        simp at stack
      · exact apart q aligned (holds q e mem inside)
      · exact apart q aligned (holds q e mem inside)
    have inv := invariant _ step_within ⟨inv_of_wf wf, planned, by simp⟩ run
    exact inv.2.1 p (inv.1.wf.allocFrame_some served).mem
  · have inv := invariant Sys.Inv step_inv (inv_of_wf wf) run
    have took := inv.wf.allocFrame_some served
    have small := took.small
    have aligned := took.page
    rw [page] at aligned ⊢
    omega

def stackPlan (bootStackPhys : Nat) : AllocPlanInput where
  memoryMap := [⟨0x7F000, 0x100000, 0⟩]
  kernelImageBase := 0
  kernelImageEnd := 0
  bootStackPhys := bootStackPhys

theorem bootStack_skipped : ∃ s fa',
    exec step [.allocFrame] ⟨FRAME_ALLOCATOR.planRegions (stackPlan 0x100800), ∅⟩ = some s ∧
      s.fa.allocFrame = some (some 0x101000, fa') ∧
      (0x101000 + PAGE_SIZE_U64 ≤ 0x100800 - BOOT_STACK_RESERVE ∨ 0x100800 < 0x101000) := by
  obtain ⟨s, fa', run, served⟩ :=
    exists_served ⟨FRAME_ALLOCATOR.planRegions (stackPlan 0x100800), ∅⟩ [.allocFrame] 0x101000 (by decide +kernel)
  exact ⟨s, fa', run, served, bootStack_never_served _ (stackPlan 0x100800)
    (by simp [stackPlan, MemoryRegion.isUsable]) (by decide) (by decide) (by decide) run served⟩

/-- With bit 12 set, the page that holds the stack pointer is the second to be
    handed out. -/
theorem bootStack_served : ∃ s fa',
    exec step [.allocFrame] ⟨FRAME_ALLOCATOR.planRegions (stackPlan 0x101800), ∅⟩ = some s ∧
      s.fa.allocFrame = some (some 0x101000, fa') ∧
      ¬ (0x101000 + PAGE_SIZE_U64 ≤ 0x101800 - BOOT_STACK_RESERVE ∨ 0x101800 < 0x101000) := by
  obtain ⟨s, fa', run, served⟩ :=
    exists_served ⟨FRAME_ALLOCATOR.planRegions (stackPlan 0x101800), ∅⟩ [.allocFrame] 0x101000 (by decide +kernel)
  exact ⟨s, fa', run, served, by decide⟩

end Zenus.Mem.FrameAllocator
