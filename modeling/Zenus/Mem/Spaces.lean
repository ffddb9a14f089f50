import Zenus.Mem.SpaceInv

/-! # Runs of the address-space code

A system is a machine and the CR3 values of the spaces that were created or cloned
and not destroyed since.
-/

namespace Zenus.Mem

open Lib.Run Option

namespace Spaces

open Machine

structure Sys where
  machine : Machine
  /-- The CR3 values of the live spaces. -/
  spaces : List Nat

inductive Op where
  | createAddressSpace
  | mapFresh (cr3 virt : Nat) (writable executable : Bool)
  | cloneUserAddressSpace (cr3 : Nat)
  | destroyAddressSpace (cr3 : Nat)
  deriving DecidableEq, Repr

def step (mapper : Mapper) (s : Sys) : Op → Option Sys
  | .createAddressSpace =>
    s.machine.createAddressSpace.map fun (cr3, m) => ⟨m, cr3.toList ++ s.spaces⟩
  | .mapFresh cr3 virt writable executable =>
    if cr3 ∈ s.spaces then
      (s.machine.mapFresh mapper cr3 virt writable executable).map fun m => ⟨m, s.spaces⟩
    else none
  | .cloneUserAddressSpace cr3 =>
    if cr3 ∈ s.spaces then
      (s.machine.cloneUserAddressSpace cr3).map fun (child, m) => ⟨m, child.toList ++ s.spaces⟩
    else none
  | .destroyAddressSpace cr3 =>
    if cr3 ∈ s.spaces then
      (s.machine.destroyAddressSpace cr3).map fun m => ⟨m, s.spaces.erase cr3⟩
    else none

def Sys.roots (s : Sys) : List Nat := s.spaces.map pageBase

variable {mapper : Mapper}

/-! ## Use after free -/

/-- A clone is safe if its source has no read-only page; any other step is. -/
def Safe (s : Sys) : Op → Prop
  | .cloneUserAddressSpace cr3 => NoReadOnly s.machine.mem (pageBase cr3)
  | _ => True

instance (s : Sys) : (op : Op) → Decidable (Safe s op)
  | .cloneUserAddressSpace cr3 => decidableNoReadOnly s.machine.mem (pageBase cr3)
  | .createAddressSpace | .mapFresh .. | .destroyAddressSpace _ => isTrue trivial

theorem roots_perm {spaces : List Nat} {cr3 : Nat} (live : cr3 ∈ spaces) :
    (spaces.map pageBase).Perm (pageBase cr3 :: (spaces.erase cr3).map pageBase) :=
  (List.perm_cons_erase live).map pageBase

theorem step_inv (s : Sys) (op : Op) (s' : Sys) (inv : ∃ K, Inv K s.machine s.roots)
    (safe : Safe s op) (stepped : step mapper s op = some s') : ∃ K, Inv K s'.machine s'.roots := by
  obtain ⟨K, inv⟩ := inv
  cases op with
  | createAddressSpace =>
    obtain ⟨⟨result, m'⟩, run, rfl⟩ := map_eq_some_iff.mp stepped
    rcases createAddressSpace_cases inv.wf run with ⟨rfl, rfl⟩ | ⟨p, m₁, new, rfl, made⟩
    · exact ⟨K, inv⟩
    · refine ⟨K, ?_⟩
      have created := (inv.created new made).1
      rwa [← pageBase_cr3 new.frame s.machine.cr3] at created
  | mapFresh cr3 virt writable executable =>
    obtain ⟨live, stepped⟩ := ite_none_right_eq_some.mp stepped
    obtain ⟨m', run, rfl⟩ := map_eq_some_iff.mp stepped
    obtain ⟨K', inv'⟩ := (inv.perm (roots_perm live)).mapFresh run
    exact ⟨K', inv'.perm (roots_perm live).symm⟩
  | cloneUserAddressSpace cr3 =>
    obtain ⟨live, stepped⟩ := ite_none_right_eq_some.mp stepped
    obtain ⟨⟨result, m'⟩, run, rfl⟩ := map_eq_some_iff.mp stepped
    have root : pageBase cr3 ∈ s.roots := List.mem_map_of_mem live
    refine ⟨K, ?_⟩
    rcases cloneUserAddressSpace_outcome inv.wf
      (fun f h => (inv.used f (mem_live.mpr ⟨_, root, h⟩)).1) run with
      ⟨child, rfl, cloned⟩ | ⟨rfl, wf, sub, statics, keep, -⟩
    · have added := inv.cloned root safe cloned
      rwa [← pageBase_cr3 cloned.frame cr3] at added
    · exact (inv.keep wf sub statics keep).1
  | destroyAddressSpace cr3 =>
    obtain ⟨live, stepped⟩ := ite_none_right_eq_some.mp stepped
    obtain ⟨m', run, rfl⟩ := map_eq_some_iff.mp stepped
    have inv := inv.perm (roots_perm live)
    refine ⟨K, ?_⟩
    rcases destroyAddressSpace_cases run (inv.frame _ (.head _))
      (inv.plain _ (.head _)) with ⟨rfl, _⟩ | gone
    · exact inv.forget
    · exact (inv.destroyed gone).1

/-- Frames that can be reached from a space: its PML4, and the tables and pages of its
    user half.  The kernel half belongs to no space; its direct map reaches everything. -/
def Reaches (s : Sys) (cr3 f : Nat) : Prop := f ∈ userFrames s.machine.mem (pageBase cr3)

/-- In every run in which no space with a read-only page is cloned, no frame on the
    free stack is reachable from a live space. -/
theorem freeStack_unreachable (mapper : Mapper) (m : Machine) (K : Nat → Set Nat)
    (boot : Boot K m) {ops : List Op} {s : Sys}
    (safe : Along (step mapper) Safe ops ⟨m, []⟩)
    (run : exec (step mapper) ops ⟨m, []⟩ = some s) :
    ∀ f ∈ s.machine.fa.freeStack, ∀ cr3 ∈ s.spaces, ¬ Reaches s cr3 f := by
  obtain ⟨K', inv⟩ := invariant_along (fun s : Sys => ∃ K, Inv K s.machine s.roots)
    step_inv ⟨K, boot.inv⟩ safe run
  intro f free cr3 live reached
  exact (inv.used f (mem_live.mpr ⟨pageBase cr3, List.mem_map_of_mem live, reached⟩)).1 (.inl free)

/-- No frame is reached from two spaces, and the allocator can hand out none that is. -/
def Apart (s : Sys) : Prop :=
  s.spaces.Pairwise (fun a b => ∀ f, Reaches s a f → ¬ Reaches s b f) ∧
    ∀ cr3 ∈ s.spaces, ∀ f, Reaches s cr3 f → f ∉ s.machine.fa.avail

/-- The spaces stay apart throughout such a run. -/
theorem spaces_apart {m : Machine} {K : Nat → Set Nat} (boot : Boot K m) {ops : List Op}
    (safe : Along (step mapper) Safe ops ⟨m, []⟩) : Always (step mapper) Apart ops ⟨m, []⟩ := by
  refine safe.always (fun s : Sys => ∃ K, Inv K s.machine s.roots) step_inv ?_ ⟨K, boot.inv⟩
  rintro s ⟨K, inv⟩
  constructor
  · have apart := List.pairwise_map.mp (List.nodup_flatMap.mp inv.nodup).2
    exact apart.imp fun disjoint f first second => disjoint first second
  · exact fun cr3 live f reached => (inv.used f (mem_live.mpr ⟨_, List.mem_map_of_mem live, reached⟩)).1

/-! ## A machine after boot -/

/-- A kernel PML4 at `0x6000` with one table in its upper half. -/
def bootMachine : Machine where
  mem f i := if f = 0x6000 ∧ i = 256 then 0x7003 else 0
  fa := FrameAllocator.FRAME_ALLOCATOR.planRegions bootPlan
  cr3 := 0x6000
  hhdmOffset := 0xFFFF800000000000
  level4Phys := 0x6000
  kernelCr3 := 0x6000
  freedCr3Count := 0
  freedCr3List _ := 0
  served := []

def bootRegion : Nat → Set Nat
  | 3 => {0x6000}
  | 2 => {0x7000}
  | _ => ∅

theorem boot_bootMachine : Boot bootRegion bootMachine := by
  have cases : ∀ a t, t ∈ bootRegion a → (a = 3 ∧ t = 0x6000) ∨ (a = 2 ∧ t = 0x7000) := by
    intro a t member
    unfold bootRegion at member
    split at member
    · exact .inl ⟨rfl, member⟩
    · exact .inr ⟨rfl, member⟩
    · exact absurd member (Set.notMem_empty t)
  refine ⟨wf_bootPlan, ⟨?_, ?_, ?_⟩, rfl, rfl⟩
  · intro a t member i _
    rcases cases a t member with ⟨rfl, rfl⟩ | ⟨rfl, rfl⟩
    · simp only [bootMachine, true_and]
      split_ifs
      · exact fun _ _ => rfl
      · exact into_zero _ _
    · exact into_zero _ _
  · intro a t member here
    have high := bootPlan_avail here
    rcases cases a t member with ⟨_, rfl⟩ | ⟨_, rfl⟩ <;> omega
  · intro a b t first second
    rcases cases a t first with ⟨rfl, rfl⟩ | ⟨rfl, rfl⟩ <;>
      rcases cases b _ second with ⟨rfl, same⟩ | ⟨rfl, same⟩ <;> first | rfl | omega

/-- A read-only page is shared by a clone, and the parent is destroyed. -/
def forkReadOnly : List Op :=
  [.createAddressSpace, .mapFresh 0x100000 0x400000 false true, .cloneUserAddressSpace 0x100000,
    .destroyAddressSpace 0x100000]

theorem freed_page_still_mapped :
    ∃ s, exec (step offsetPageTable) forkReadOnly ⟨bootMachine, []⟩ = some s ∧
      0x105000 ∈ s.spaces ∧ 0x101000 ∈ s.machine.fa.freeStack ∧ Reaches s 0x105000 0x101000 :=
  exists_of_any (p := fun s : Sys => 0x105000 ∈ s.spaces ∧ 0x101000 ∈ s.machine.fa.freeStack ∧
    0x101000 ∈ userFrames s.machine.mem (pageBase 0x105000)) (by decide +kernel)

/-- The same with a writable page, which the clone copies. -/
def forkWritable : List Op :=
  [.createAddressSpace, .mapFresh 0x100000 0x400000 true true, .cloneUserAddressSpace 0x100000,
    .destroyAddressSpace 0x100000]

theorem freeStack_unreachable_forkWritable :
    ∃ s, exec (step offsetPageTable) forkWritable ⟨bootMachine, []⟩ = some s ∧
      0x105000 ∈ s.spaces ∧ 0x101000 ∈ s.machine.fa.freeStack ∧
      ∀ f ∈ s.machine.fa.freeStack, ∀ cr3 ∈ s.spaces, ¬ Reaches s cr3 f := by
  obtain ⟨s, reached, child, freed⟩ : ∃ s, exec (step offsetPageTable) forkWritable ⟨bootMachine, []⟩ = some s ∧
      0x105000 ∈ s.spaces ∧ 0x101000 ∈ s.machine.fa.freeStack := exists_of_any (by decide +kernel)
  exact ⟨s, reached, child, freed,
    freeStack_unreachable offsetPageTable bootMachine bootRegion boot_bootMachine
      (by decide +kernel) reached⟩

theorem spaces_apart_forkWritable : Always (step offsetPageTable) Apart forkWritable ⟨bootMachine, []⟩ :=
  spaces_apart boot_bootMachine (by decide +kernel)

end Spaces

end Zenus.Mem
