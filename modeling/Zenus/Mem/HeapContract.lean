import Zenus.Mem.HeapRuns

/-! # Requests of every size and alignment

`alloc_mut` puts the header of a request on a multiple of the alignment and the
payload behind it, and rounds the payload, the rest of the block and the extent in
the header separately.  What that gives for alignments beyond the header's own, and
for requests whose end passes the top of the address space.
-/

namespace Zenus.Mem

open Lib.Word

namespace FreeListAllocator

variable {A : Arena} {s t : FreeListAllocator} {free live : List Block} {layout : Layout} {x align a u : Nat}

/-- Rounding up gives the least multiple at or above `x`, or zero where that is the top of
    the address space. -/
theorem alignUp_mod (pow : ∃ k, align = 2 ^ k) (low : align ≤ WORD) (x : Nat) :
    alignUp x align = (x + (align - 1)) / align * align % WORD := by
  obtain ⟨k, rfl⟩ := pow
  have pos : 0 < 2 ^ k := Nat.two_pow_pos k
  have deep : k ≤ 64 := (Nat.pow_le_pow_iff_right (by decide)).mp low
  have word : WORD = 2 ^ (64 - k) * 2 ^ k := by rw [← Nat.pow_add, Nat.sub_add_cancel deep, WORD]
  have sum : wsub (wadd x (2 ^ k)) 1 = (x + (2 ^ k - 1)) % WORD := by
    simp only [wsub, wadd, WORD]
    omega
  rw [alignUp, sum, and_bnot_mask (Nat.mod_lt _ (by decide)) deep, word, Nat.mul_mod_mul_right,
    Nat.mod_mul_left_div_self]

theorem alignUp_spec (pow : ∃ k, align = 2 ^ k) (small : x + align < WORD) :
    x ≤ alignUp x align ∧ alignUp x align < x + align ∧ align ∣ alignUp x align := by
  have pos : 0 < align := by
    obtain ⟨k, rfl⟩ := pow
    exact Nat.two_pow_pos k
  have spec := roundUp_spec (x := x) pos
  rwa [alignUp_mod pow (by omega), Nat.mod_eq_of_lt (by omega)]

/-- The alignment the source works with. -/
def grain (layout : Layout) : Nat := max layout.align 16

theorem grain_pow (layout : Layout) : ∃ k, grain layout = 2 ^ k := by
  obtain ⟨k, power⟩ := layout.pow
  rcases max_choice layout.align 16 with same | same
  · exact ⟨k, same.trans power⟩
  · exact ⟨4, same⟩

theorem grain_le (layout : Layout) : grain layout ≤ 2 ^ 63 := by
  have := layout.small
  rw [grain]
  omega

/-- The source's test of a free block: the sums wrap around. -/
def accepts (layout : Layout) (b : Block) : Bool :=
  decide (wadd (wadd (alignUp b.addr (grain layout)) HEADER_SIZE) (request layout) ≤ b.addr + HEADER_SIZE + b.size)

/-- The least multiple of the alignment in the block, where the header goes. -/
def headerPlace (layout : Layout) (b : Block) : Nat :=
  (b.addr + (grain layout - 1)) / grain layout * grain layout

/-- The end of a payload in this block is below the top of the address space. -/
def Unwrapped (layout : Layout) (b : Block) : Prop :=
  headerPlace layout b + HEADER_SIZE + request layout < WORD

instance (layout : Layout) (b : Block) : Decidable (Unwrapped layout b) := Nat.decLt _ _

/-- The request is served by a header at `u`, inside the free block `b`. -/
structure Served (t : FreeListAllocator) (layout : Layout) (u : Nat) (b : Block) : Prop where
  low : b.addr ≤ u
  high : u + HEADER_SIZE + request layout ≤ b.addr + HEADER_SIZE + b.size
  grained : grain layout ∣ u
  extent : (t.header u).size = alignUp (request layout) (grain layout)

theorem header_recordSplitTrace (s : FreeListAllocator) (prev curr data size blockSize stop a : Nat) :
    (s.recordSplitTrace prev curr data size blockSize stop).header a = s.header a := rfl

theorem header_carve (s : FreeListAllocator) (size align prev curr : Nat) :
    ((s.carve size align prev curr).header (alignUp curr align)).size = alignUp size align := by
  unfold carve
  rw [header_recordSplitTrace, writeHeader_self]

theorem Inv.fits_iff (inv : Inv A s free live) {b : Block} (mem : b ∈ free) :
    s.fits (request layout) (grain layout) b.addr = accepts layout b := by
  have small := (inv.placed b (List.mem_append_left _ mem)).small
  rw [fits, accepts, (inv.freeHdr b mem).size, wadd_of_lt (a := b.addr) (by omega),
    wadd_of_lt (b := b.size) (by omega)]

/-- The first block that passes the test is taken. -/
theorem Inv.allocMut_outcome (inv : Inv A s free live) (layout : Layout) :
    (free.find? (accepts layout) = none ∧ ∃ t, s.allocMut A layout = some (0, t) ∧ Inv A t free live) ∨
    ∃ b t, free.find? (accepts layout) = some b ∧ b ∈ free ∧ accepts layout b = true ∧
      s.allocMut A layout = some (wadd (alignUp b.addr (grain layout)) HEADER_SIZE, t) ∧
      (t.header (alignUp b.addr (grain layout))).size = alignUp (request layout) (grain layout) := by
  have inv := inv.checked "alloc"
  unfold FreeListAllocator.allocMut
  generalize (s.ensureInitialized A).debugCheckFreeList A "alloc" = s at inv ⊢
  rcases allocWalk_spec (request layout) (grain layout) inv.linked inv.length_lt with
    ⟨never, result⟩ | ⟨pre, b, post, rfl, before, fit, result⟩
  · refine .inl ⟨List.find?_eq_none.mpr fun b mem => ?_, s, result, inv⟩
    rw [← inv.fits_iff mem, never b mem]
    decide
  · have mine : b ∈ pre ++ b :: post := List.mem_append_right _ (.head _)
    rw [inv.fits_iff mine] at fit
    refine .inr ⟨b, _, List.find?_eq_some_iff_append.mpr ⟨fit, pre, post, rfl, fun c mem => ?_⟩, mine, fit, result,
      header_carve ..⟩
    rw [← inv.fits_iff (List.mem_append_left _ mem), before c mem]
    rfl

section Place

variable {b : Block}

theorem alignUp_place : alignUp b.addr (grain layout) = headerPlace layout b % WORD :=
  alignUp_mod (grain_pow layout) ((grain_le layout).trans (by decide)) b.addr

variable (place : Placed A b)

include place

/-- The header goes below the last grain of the address space, or the rounding wraps. -/
theorem headerPlace_cases (layout : Layout) : b.addr ≤ headerPlace layout b ∧ headerPlace layout b < b.addr + grain layout ∧
    grain layout ∣ headerPlace layout b ∧ (headerPlace layout b + HEADER_SIZE < WORD ∨ headerPlace layout b = WORD) := by
  have pos : 0 < grain layout := lt_of_lt_of_le (by decide) (le_max_right _ _)
  obtain ⟨above, below, grained⟩ := roundUp_spec (x := b.addr) pos
  have word : grain layout ∣ WORD := by
    obtain ⟨k, power⟩ := grain_pow layout
    have low := grain_le layout
    rw [power] at low ⊢
    exact Nat.pow_dvd_pow 2 (((Nat.pow_le_pow_iff_right (by decide)).mp low).trans (by decide))
  have small := place.small
  refine ⟨above, below, grained, ?_⟩
  change headerPlace layout b < b.addr + grain layout at below
  have top : headerPlace layout b ≤ WORD := Nat.le_of_lt_add_of_dvd (by omega) grained word
  rcases Nat.lt_or_eq_of_le top with less | whole
  · have next : headerPlace layout b + grain layout ≤ WORD :=
      Nat.le_of_lt_add_of_dvd (by omega) ((Nat.dvd_add_self_right).mpr grained) word
    have wide : HEADER_SIZE = 32 := rfl
    exact .inl (by omega)
  · exact .inr whole

theorem served_of_unwrapped (accepted : accepts layout b = true) (unwrapped : Unwrapped layout b)
    (extent : (t.header (alignUp b.addr (grain layout))).size = alignUp (request layout) (grain layout)) :
    wadd (alignUp b.addr (grain layout)) HEADER_SIZE = headerPlace layout b + HEADER_SIZE ∧
      Served t layout (headerPlace layout b) b := by
  obtain ⟨above, -, grained, -⟩ := headerPlace_cases place layout
  rw [Unwrapped] at unwrapped
  have here : alignUp b.addr (grain layout) = headerPlace layout b := by
    rw [alignUp_place, Nat.mod_eq_of_lt (by omega)]
  have data : wadd (headerPlace layout b) HEADER_SIZE = headerPlace layout b + HEADER_SIZE := wadd_of_lt (by omega)
  rw [accepts, decide_eq_true_iff, here, data, wadd_of_lt unwrapped] at accepted
  rw [here] at extent ⊢
  exact ⟨data, above, accepted, grained, extent⟩

end Place

/-! ## Large requests -/

theorem served_first (layout : Layout)
    (first : (((initHeap kernelArena fun _ => 0).allocMut kernelArena layout).any fun out =>
      decide (out.1 = 0xffffffff80400020)) = true) :
    ∃ out, (initHeap kernelArena fun _ => 0).allocMut kernelArena layout = some out ∧
      out.1 = 0xffffffff80400020 := Lib.Run.exists_of_any first

/-- What a payload at `p`, carved from the free block `b`, owes to its layout and to the
    blocks beside it: the rest of `b` keeps a header of its own when it is large enough. -/
structure Contract (t : FreeListAllocator) (layout : Layout) (b : Block) (p : Nat) : Prop where
  aligned : layout.align ∣ p
  leftover : alignUp (p + request layout) (grain layout) + HEADER_SIZE + MIN_BLOCK ≤
      b.addr + HEADER_SIZE + b.size →
    p + (t.header (p - HEADER_SIZE)).size ≤ alignUp (p + request layout) (grain layout)
  inside : p + (t.header (p - HEADER_SIZE)).size ≤ b.addr + HEADER_SIZE + b.size

theorem pow_dvd_iff (pow : ∃ k, a = 2 ^ k) (j : Nat) : a ∣ 2 ^ j ↔ a ≤ 2 ^ j := by
  obtain ⟨k, rfl⟩ := pow
  rw [Nat.pow_dvd_pow_iff_le_right (by decide), Nat.pow_le_pow_iff_right (by decide)]

theorem align_dvd_grain (layout : Layout) : layout.align ∣ grain layout := by
  rcases le_total layout.align 16 with small | large
  · rw [grain, max_eq_right small]
    exact (pow_dvd_iff layout.pow 4).mpr small
  · rw [grain, max_eq_left large]

theorem Served.aligned_iff {b : Block} (served : Served t layout u b) :
    layout.align ∣ u + HEADER_SIZE ↔ grain layout ≤ 32 := by
  rw [Nat.dvd_add_right ((align_dvd_grain layout).trans served.grained)]
  refine (pow_dvd_iff layout.pow 5).trans ?_
  rw [grain]
  omega

/-- A payload keeps its contract exactly when the alignment is that of the header or
    smaller and the first block that passes the test has room for the size rounded up to the
    alignment. -/
theorem contract_iff (inv : Inv A s free live)
    (unwrapped : ∀ b ∈ free.find? (accepts layout), Unwrapped layout b) {p : Nat}
    (run : s.allocMut A layout = some (p, t)) (served : p ≠ 0) :
    ∃ b, free.find? (accepts layout) = some b ∧ (Contract t layout b p ↔ grain layout ≤ 32 ∧
      headerPlace layout b + alignUp (request layout) (grain layout) ≤ b.addr + b.size) := by
  rcases inv.allocMut_outcome layout with ⟨-, _, result, -⟩ | ⟨b, t', found, mem, accepted, result, extent⟩
  · rw [result] at run
    exact absurd (Prod.mk.inj (Option.some.inj run)).1.symm served
  · have place := inv.placed b (List.mem_append_left _ mem)
    obtain ⟨data, carved⟩ := served_of_unwrapped place accepted (unwrapped b found) extent
    rw [result, data] at run
    cases run
    have extent := carved.extent
    refine ⟨b, found, ?_, ?_⟩
    · rintro ⟨aligned, -, inside⟩
      rw [Nat.add_sub_cancel, extent] at inside
      exact ⟨carved.aligned_iff.mp aligned, by omega⟩
    · rintro ⟨small, inside⟩
      refine ⟨carved.aligned_iff.mpr small, fun _ => ?_, by rw [Nat.add_sub_cancel, extent]; omega⟩
      rw [Nat.add_sub_cancel, extent]
      have stop := place.small
      have high := carved.high
      have wide : HEADER_SIZE = 32 := rfl
      obtain ⟨-, below, multiple⟩ := alignUp_spec (x := request layout) (grain_pow layout) (by omega)
      obtain ⟨above, -, multiple'⟩ := alignUp_spec (x := headerPlace layout b + HEADER_SIZE + request layout)
        (grain_pow layout) (by omega)
      have payload : grain layout ∣ headerPlace layout b + HEADER_SIZE :=
        (Nat.dvd_add_right carved.grained).mpr ((pow_dvd_iff (grain_pow layout) 5).mpr small)
      exact Nat.le_of_lt_add_of_dvd (by omega) ((Nat.dvd_add_right payload).mpr multiple) multiple'

/-- The layout of a cache line. -/
def cacheLine : Layout := ⟨64, 64, ⟨6, rfl⟩, by decide⟩

theorem contract_fresh :
    ∃ p t, (initHeap kernelArena fun _ => 0).allocMut kernelArena (bytes 24 (by decide)) = some (p, t) ∧
      Contract t (bytes 24 (by decide)) (wholeBlock kernelArena) p := by
  obtain ⟨⟨_, t⟩, run, rfl⟩ := served_first (bytes 24 (by decide)) (by decide)
  obtain ⟨b, found, holds⟩ := contract_iff (start_inv kernelArena fun _ => 0).heap (by decide) run (by decide)
  have first : [wholeBlock kernelArena].find? (accepts (bytes 24 (by decide))) = some (wholeBlock kernelArena) := by
    decide
  cases first.symm.trans found
  exact ⟨_, t, run, holds.mpr (by decide)⟩

/-- The payload for a cache line of a fresh heap is not on a multiple of 64. -/
theorem cacheLine_misaligned :
    Inv kernelArena (initHeap kernelArena fun _ => 0) [wholeBlock kernelArena] [] ∧
    ∃ p t, (initHeap kernelArena fun _ => 0).allocMut kernelArena cacheLine = some (p, t) ∧
      p ≠ 0 ∧ ¬ cacheLine.align ∣ p := by
  refine ⟨(start_inv kernelArena fun _ => 0).heap, ?_⟩
  obtain ⟨⟨_, t⟩, run, rfl⟩ := served_first cacheLine (by decide)
  exact ⟨_, t, run, by decide, by decide⟩

end FreeListAllocator

end Zenus.Mem
