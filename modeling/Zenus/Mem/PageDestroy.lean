import Zenus.Mem.PageMap

/-! # Destroying an address space

A tree without huge pages is given back frame by frame, in the order in which
`hang` lists it: children before the table, and the PML4 last.
-/

namespace Zenus.Mem

open Lib.Radix List Option FrameAllocator

/-! ## Giving back a list of frames -/

namespace FrameAllocator

variable {fa : FrameAllocator} {fs : List Nat}

def freeAll (fa : FrameAllocator) (fs : List Nat) : FrameAllocator := fs.foldl freeFrame fa

theorem freeAll_append (fa : FrameAllocator) (fs gs : List Nat) :
    fa.freeAll (fs ++ gs) = (fa.freeAll fs).freeAll gs :=
  foldl_append

/-- Frames that are distinct and in use may all be given back, and nothing else
    becomes available. -/
theorem Wf.freeAll (wf : fa.Wf) (nodup : fs.Nodup) (frame : ∀ f ∈ fs, IsFrame f)
    (held : ∀ f ∈ fs, f ∉ fa.avail) :
    (fa.freeAll fs).Wf ∧ ∀ f ∈ (fa.freeAll fs).avail, f ∈ fs ∨ f ∈ fa.avail := by
  induction fs generalizing fa with
  | nil => exact ⟨wf, fun _ => .inr⟩
  | cons g fs ih =>
    obtain ⟨apart, nodup⟩ := nodup_cons.mp nodup
    obtain ⟨wf', sub⟩ := wf.freeFrame (frame g (.head _)).lt (held g (.head _))
    have held' : ∀ f ∈ fs, f ∉ (fa.freeFrame g).avail := by
      intro f member no
      rcases sub no with rfl | no
      · exact apart member
      · exact held f (.tail _ member) no
    obtain ⟨wf'', only⟩ := ih wf' nodup (fun f h => frame f (.tail _ h)) held'
    refine ⟨wf'', fun f avail => ?_⟩
    rcases only f avail with member | avail
    · exact .inl (.tail _ member)
    · rcases sub avail with rfl | avail
      · exact .inl (.head _)
      · exact .inr avail

theorem freeFrame_stack {p : Nat} (frame : IsFrame p) (nonzero : p ≠ 0)
    (room : fa.freeStack.length < FREE_STACK_SIZE) :
    (∀ f, f = p ∨ f ∈ fa.freeStack → f ∈ (fa.freeFrame p).freeStack) ∧
      (fa.freeFrame p).freeStack.length ≤ fa.freeStack.length + 1 := by
  unfold freeFrame
  rw [if_neg (not_or.mpr ⟨nonzero, fun no => no frame.aligned⟩)]
  split_ifs with there
  · refine ⟨?_, Nat.le_succ _⟩
    rintro f (rfl | member)
    · exact there
    · exact member
  · refine ⟨fun f member => ?_, le_rfl⟩
    exact mem_cons.mpr member

theorem freeAll_stack (frame : ∀ f ∈ fs, IsFrame f ∧ f ≠ 0)
    (room : fa.freeStack.length + fs.length ≤ FREE_STACK_SIZE) :
    (∀ f, f ∈ fs ∨ f ∈ fa.freeStack → f ∈ (fa.freeAll fs).freeStack) ∧
      (fa.freeAll fs).freeStack.length ≤ FREE_STACK_SIZE := by
  induction fs generalizing fa with
  | nil => exact ⟨fun f => (Or.elim · (absurd · not_mem_nil) id), room⟩
  | cons g fs ih =>
    rw [length_cons] at room
    obtain ⟨isFrame, nonzero⟩ := frame g (.head _)
    have spare : fa.freeStack.length < FREE_STACK_SIZE := by omega
    obtain ⟨pushed, length⟩ := freeFrame_stack isFrame nonzero spare
    have left : (fa.freeFrame g).freeStack.length + fs.length ≤ FREE_STACK_SIZE := by omega
    obtain ⟨rest, bounded⟩ := ih (fun f h => frame f (.tail _ h)) left
    refine ⟨?_, bounded⟩
    rintro f (member | member)
    · rcases mem_cons.mp member with rfl | member
      · exact rest f (.inr (pushed f (.inl rfl)))
      · exact rest f (.inl member)
    · exact rest f (.inr (pushed f (.inr member)))

end FrameAllocator

/-! ## The walk -/

namespace Machine

variable {mem : Nat → Nat → Nat} {fa : FrameAllocator} {l e c k p cr3 : Nat}

theorem freePhys_frame (frame : IsFrame p) : freePhys fa p = some (fa.freeFrame p) := by
  rw [freePhys, PhysAddr.new, if_pos frame.lt]
  rfl

theorem isFrame_of_hang : ∀ f ∈ hang mapped mem l e, IsFrame f := by
  have word : ∀ e f, tableOf e = some f → IsFrame f := by
    intro e f some
    unfold tableOf at some
    split_ifs at some
    exact Option.some.inj some ▸ isFrame_frameAddr e
  induction l generalizing e with
  | zero =>
    intro f member
    exact word e f (mem_toList.mp member)
  | succ l ih =>
    intro f member
    cases table : tableOf e with
    | none =>
      rw [hang_none table] at member
      exact absurd member not_mem_nil
    | some c =>
      rw [hang_some table] at member
      rcases mem_append.mp member with member | last
      · obtain ⟨i, _, here⟩ := mem_frames.mp member
        exact ih f here
      · cases mem_singleton.mp last
        exact word e f table

theorem destroyTable_eq (each : ∀ i < k, ∀ fa, destroyEntry mem l (mem c i) fa =
      some (fa.freeAll (hang mapped mem l (mem c i)))) :
    (List.range k).foldlM (fun fa i => destroyEntry mem l (mem c i) fa) fa =
      some (fa.freeAll (frames mapped mem l c k)) := by
  induction k with
  | zero => rfl
  | succ k ih =>
    rw [range_succ, foldlM_append, ih fun i before => each i (Nat.lt_succ_of_lt before),
      frames_succ, freeAll_append]
    simp only [foldlM_cons, foldlM_nil, bind_eq_bind, bind_some]
    rw [each k (Nat.lt_succ_self k)]
    rfl

theorem destroyEntry_eq (plain : All mapped Plain mem l e) :
    destroyEntry mem l e fa = some (fa.freeAll (hang mapped mem l e)) := by
  induction l generalizing e fa with
  | zero =>
    unfold destroyEntry
    split_ifs with absent
    · rw [hang_zero, show mapped.page e = none from tableOf_none absent]
      rfl
    · rw [hang_zero, show mapped.page e = some _ from tableOf_some absent,
        freePhys_frame (isFrame_frameAddr e)]
      rfl
  | succ l ih =>
    unfold destroyEntry
    split_ifs with absent huge
    · rw [hang_none (tableOf_none absent)]
      rfl
    · rcases plain.1 with rfl | ⟨_, small⟩
      · exact absurd rfl absent
      · exact absurd (small (Nat.succ_pos l)) huge
    · have entries : ∀ i < 512, All mapped Plain mem l (mem (frameAddr e) i) :=
        plain.2 _ (tableOf_some absent)
      rw [destroyTable_eq fun i before _ => ih (entries i before),
        hang_some (tableOf_some absent), freeAll_append,
        bind_some, freePhys_frame (isFrame_frameAddr e)]
      rfl

/-- The space is destroyed: its PML4 is recorded, its frames are given back, and the
    tables themselves stay as they are. -/
structure Destroyed (m m' : Machine) (root : Nat) : Prop where
  notKernel : root ≠ pageBase m.kernelCr3
  nonzero : root ≠ 0
  unrecorded : m.isAlreadyFreed root = false
  mem : m'.mem = m.mem
  fa : m'.fa = m.fa.freeAll (userFrames m.mem root)
  level4Phys : m'.level4Phys = m.level4Phys
  kernelCr3 : m'.kernelCr3 = m.kernelCr3
  served : m'.served = m.served

/-- `destroy_address_space` refuses the kernel's space, the null space and a space it
    has a record of, and destroys any other. -/
theorem destroyAddressSpace_cases {m m' : Machine}
    (run : m.destroyAddressSpace cr3 = some m') (frame : IsFrame (pageBase cr3))
    (plain : ∀ i < 256, All mapped Plain m.mem 3 (m.mem (pageBase cr3) i)) :
    (m' = m ∧ (pageBase cr3 = pageBase m.kernelCr3 ∨ pageBase cr3 = 0 ∨
      m.isAlreadyFreed (pageBase cr3) = true)) ∨ Destroyed m m' (pageBase cr3) := by
  unfold destroyAddressSpace at run
  generalize pageBase cr3 = root at run frame plain ⊢
  dsimp only at run
  split_ifs at run with kernel null record current
  · exact .inl ⟨(some.inj run).symm, .inl kernel⟩
  · exact .inl ⟨(some.inj run).symm, .inr (.inl null)⟩
  · exact .inl ⟨(some.inj run).symm, .inr (.inr record)⟩
  all_goals
    have freed : ∀ fa : FrameAllocator,
        ((List.range 256).foldlM (fun fa i => destroyEntry m.mem 3 (m.mem root i) fa) fa).bind
          (fun fa => freePhys fa root) = some (fa.freeAll (userFrames m.mem root)) := by
      intro fa
      rw [destroyTable_eq fun i before fa => destroyEntry_eq (plain i before), bind_some,
        freePhys_frame frame, userFrames, freeAll_append]
      rfl
    simp only [markFreed] at run
    rw [freed] at run
    cases run
    exact .inr ⟨kernel, null, by simpa using record, rfl, rfl, rfl, rfl, rfl⟩

end Machine

end Zenus.Mem
