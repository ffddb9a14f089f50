import Zenus.Mem.PageFaithful
import Zenus.Mem.PageSpace

/-! # What an address space shows to its program

The view of a page is its frame and whether the program may write it.  Different pages
are reached over different words.
-/

namespace Zenus.Mem.Machine

open Lib.Radix

/-- A word that lets the program read and write what is below it. -/
def usable (w : Nat) : Bool := (w &&& USER_ACCESSIBLE != 0) && (w &&& WRITABLE != 0)

/-- The frame of a page, and whether its path lets the program write it. -/
def pageBelow (mem : Nat → Nat → Nat) (virt l t : Nat) : Option (Nat × Bool) :=
  (walkPath mem virt l t).map fun (path, leaf) => (frameAddr leaf, (leaf :: path).all usable)

/-- Two addresses whose paths part at the given level or below. -/
def Apart (l virt virt' : Nat) : Prop := ∃ k ≤ l, tableIndex k virt ≠ tableIndex k virt'

variable {m : Machine} {virt virt' l t k e flags i c r : Nat}

/-! ## Words -/

theorem usable_or_left (flags : Nat) (old : usable e = true) : usable (e ||| flags) = true := by
  simp only [usable, Bool.and_eq_true, bne_iff_ne] at old ⊢
  exact ⟨and_or_ne_zero _ old.1, and_or_ne_zero _ old.2⟩

theorem usable_or_right (e : Nat) (new : usable flags = true) : usable (e ||| flags) = true := by
  rw [Nat.or_comm]
  exact usable_or_left e new

theorem usable_parentFlags (new : usable flags = true) : usable (parentFlags flags) = true := by
  simp only [usable, Bool.and_eq_true, bne_iff_ne, parentFlags, Nat.and_assoc] at new ⊢
  exact new

/-! ## Tables -/

/-- A table that owns the trees below its first `k` words. -/
structure Table (m : Machine) (l t k : Nat) : Prop where
  target : t ∉ m.fa.avail
  nodup : (frames mapped m.mem l t k).Nodup
  used : ∀ f ∈ frames mapped m.mem l t k, f ∉ m.fa.avail ∧ f ≠ t
  plain : ∀ i < k, All mapped Plain m.mem l (m.mem t i)

theorem Table.owned (table : Table m l t k) (inside : i < k) : Owned m l t i := by
  refine ⟨table.target, table.plain i inside, ?_, fun f member => ?_⟩
  · exact ((frames_perm inside).nodup_iff.mp table.nodup).of_append_left
  · exact table.used f (hang_sub_frames inside f member)

theorem Below.toTable (below : Below m l t c) : Table m l c 512 :=
  ⟨below.table.1, below.nodup, fun f member => ⟨(below.used f member).1, (below.used f member).2.1⟩,
    below.plain⟩

theorem Space.toTable (space : Space m r) : Table m 3 r 256 :=
  ⟨space.used r (root_mem_userFrames _ _), space.tree.1, space.tree.2, space.plain⟩

/-! ## The user half -/

def pageAt (m : Machine) (cr3 virt : Nat) : Option (Nat × Bool) := pageBelow m.mem virt 3 (pageBase cr3)

theorem apart_of_pages (user : virt < 2 ^ 47) (user' : virt' < 2 ^ 47) (page : virt / 4096 ≠ virt' / 4096) :
    Apart 3 virt virt' := by
  have digit : ∀ level x, tableIndex level x = x / 4096 / 512 ^ level % 512 := by
    intro level x
    rw [tableIndex, show 0x1FF = 2 ^ 9 - 1 by decide, Nat.and_two_pow_sub_one_eq_mod,
      Nat.shiftRight_eq_div_pow, Nat.pow_add, Nat.pow_mul, Nat.div_div_eq_div_mul]
  by_contra same
  have digits : ∀ level ≤ 3, virt / 4096 / 512 ^ level % 512 = virt' / 4096 / 512 ^ level % 512 := by
    intro level low
    rw [← digit, ← digit]
    by_contra differ
    exact same ⟨level, low, differ⟩
  have d0 := digits 0 (by decide)
  have d1 := digits 1 (by decide)
  have d2 := digits 2 (by decide)
  have d3 := digits 3 (by decide)
  omega

theorem permissions_eq (m : Machine) (cr3 virt : Nat) :
    (m.permissions cr3 virt).map (fun perms => perms.user && perms.writable) =
      (m.pageAt cr3 virt).map Prod.snd := by
  have both : ∀ words : List Nat, ((permsOf words).user && (permsOf words).writable) = words.all usable := by
    intro words
    induction words with
    | nil => rfl
    | cons w rest ih =>
      simp only [permsOf, List.all_cons, usable] at ih ⊢
      rw [← ih]
      ac_rfl
  simp only [permissions, pageAt, pageBelow, Option.map_map, Function.comp_def, both]

theorem space_of_low (fresh : m.fa = FrameAllocator.FRAME_ALLOCATOR.planRegions bootPlan)
    (nodup : (userFrames m.mem r).Nodup) (low : ∀ f ∈ userFrames m.mem r, f < 0x100000)
    (plain : ∀ i < 256, All mapped Plain m.mem 3 (m.mem r i)) : Space m r :=
  ⟨fresh ▸ wf_bootPlan, nodup,
    fun f member here => absurd (low f member) (bootPlan_avail (fresh ▸ here)).not_gt, plain⟩

end Zenus.Mem.Machine
