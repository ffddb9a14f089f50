import Zenus.Mem.Spaces

/-! # What destroyed spaces give back

Every frame the allocator has handed out is on the free stack or held by somebody.
Creating a space and mapping pages moves frames from the allocator to the space, and
destroying a space moves them to the free stack: unless the PML4 is in the history of
freed spaces, in which case the space is skipped and all its frames are lost.
-/

namespace Zenus.Mem

open Lib.Run List Option
open FrameAllocator (freeAll_stack)

namespace Machine

variable {K : Nat → Set Nat} {m m' : Machine} {roots : List Nat} {held held' new fs roots' : List Nat}
  {r p virt cr3 : Nat} {mapper : Mapper} {writable executable : Bool}

/-- Every frame handed out so far is on the free stack or in `held`. -/
structure Balanced (m : Machine) (held : List Nat) : Prop where
  accounted : ∀ f ∈ m.served, f ∈ m.fa.freeStack ∨ f ∈ held
  bounded : m.fa.freeStack.length ≤ FREE_STACK_SIZE
  nonzero : 0 ∉ m.fa.avail
  held : ∀ f ∈ held, f ≠ 0

theorem Balanced.congr (bal : Balanced m held) (same : ∀ f, f ∈ held' ↔ f ∈ held) :
    Balanced m held' :=
  ⟨fun f h => (bal.accounted f h).imp_right (same f).mpr, bal.bounded, bal.nonzero,
    fun f h => bal.held f ((same f).mp h)⟩

theorem Balanced.perm (bal : Balanced m (m.live roots))
    (same : roots.Perm roots') : Balanced m (m.live roots') :=
  bal.congr fun _ => (same.flatMap_right _).mem_iff.symm

theorem Balanced.grow (bal : Balanced m held) (grown : Grown m m' new) : Balanced m' (new ++ held) := by
  refine ⟨?_, grown.shorter.trans bal.bounded, fun no => bal.nonzero (grown.sub no), ?_⟩
  · intro f served
    rcases grown.served f served with early | served
    · exact .inr (mem_append_left _ early)
    · rcases bal.accounted f served with stack | member
      · exact (grown.stack f stack).imp_right (mem_append_left _)
      · exact .inr (mem_append_right _ member)
  · intro f member
    rcases mem_append.mp member with early | old
    · rintro rfl
      exact bal.nonzero (grown.fresh 0 early).1
    · exact bal.held f old

theorem Balanced.give (bal : Balanced m (fs ++ held)) (m' : Machine) (wf : m.fa.Wf) (nodup : fs.Nodup)
    (frame : ∀ f ∈ fs, IsFrame f ∧ f ∉ m.fa.avail)
    (room : m.fa.freeStack.length + fs.length ≤ FREE_STACK_SIZE)
    (fa : m'.fa = m.fa.freeAll fs) (served : m'.served = m.served) : Balanced m' held := by
  have nonzero : ∀ f ∈ fs, IsFrame f ∧ f ≠ 0 := fun f h =>
    ⟨(frame f h).1, bal.held f (mem_append_left _ h)⟩
  obtain ⟨stacked, bounded⟩ := freeAll_stack nonzero room
  obtain ⟨_, only⟩ := wf.freeAll nodup (fun f h => (frame f h).1) fun f h => (frame f h).2
  rw [← fa] at stacked bounded only
  refine ⟨?_, bounded, ?_, fun f h => bal.held f (mem_append_right _ h)⟩
  · intro f log
    rw [served] at log
    rcases bal.accounted f log with stack | member
    · exact .inl (stacked f (.inr stack))
    · rcases mem_append.mp member with freed | member
      · exact .inl (stacked f (.inl freed))
      · exact .inr member
  · intro no
    rcases only 0 no with freed | avail
    · exact bal.held 0 (mem_append_left _ freed) rfl
    · exact bal.nonzero avail

theorem Allocated.room (new : m.Allocated p m') (bounded : m.fa.freeStack.length ≤ FREE_STACK_SIZE) :
    m'.fa.freeStack.length < FREE_STACK_SIZE := by
  rcases new.stack with taken | ⟨_, empty⟩
  · rw [taken, length_cons] at bounded
    exact bounded
  · rw [empty]
    decide

theorem Balanced.mapFresh (bal : Balanced m (m.live (pageBase cr3 :: roots)))
    (inv : Inv K m (pageBase cr3 :: roots)) (user : virt < 2 ^ 47)
    (run : m.mapFresh mapper cr3 virt writable executable = some m') :
    Balanced m' (m'.live (pageBase cr3 :: roots)) := by
  rcases mapFresh_cases inv.wf run with rfl | ⟨p, m₁, ok, m₂, new, mapped, rfl⟩
  · exact bal
  · obtain ⟨inv₁, lives, held⟩ := inv.allocated new
    obtain ⟨K', tables, grown, inv₂, back, live⟩ := inv₁.mapStep held mapped
    have live := live user
    rw [lives] at live
    have bal₂ := bal.grow (new.grown.trans grown)
    cases ok with
    | true =>
      refine bal₂.congr fun f => ?_
      rw [if_pos rfl, live f]
      simp
    | false =>
      have room := grown.shorter.trans_lt (new.room bal.bounded)
      have bal₂ : Balanced m₂ ([p] ++ m₂.live (pageBase cr3 :: roots)) := by
        refine bal₂.congr fun f => ?_
        rw [mem_append, live f]
        simp only [mem_append, mem_singleton]
        tauto
      exact bal₂.give { m₂ with fa := m₂.fa.freeFrame p } inv₂.wf (nodup_singleton p)
        (fun f h => mem_singleton.mp h ▸ ⟨held.frame, (back rfl).taken⟩) room rfl rfl

theorem Balanced.destroyed (bal : Balanced m (m.live (r :: roots))) (inv : Inv K m (r :: roots))
    (gone : Destroyed m m' r) (room : m.fa.freeStack.length + (userFrames m.mem r).length ≤ FREE_STACK_SIZE) :
    Balanced m' (m'.live roots) := by
  have nodup := inv.nodup
  rw [(inv.destroyed gone).2]
  refine bal.give m' inv.wf nodup.of_append_left (fun f h => ?_) room gone.fa gone.served
  exact ⟨inv.isFrame f h, (inv.used f (mem_live.mpr ⟨r, .head _, h⟩)).1⟩

end Machine

namespace Spaces

open Machine

variable {mapper : Mapper}

/-- The steps whose frames come back: mappings in the user half, and destructions of
    spaces that are not in the history, with room on the free stack.  Clones are not
    part of these runs. -/
def Returned (s : Sys) : Op → Prop
  | .createAddressSpace => True
  | .mapFresh _ virt _ _ => virt < 2 ^ 47
  | .cloneUserAddressSpace _ => False
  | .destroyAddressSpace cr3 =>
    s.machine.isAlreadyFreed (pageBase cr3) = false ∧
      s.machine.fa.freeStack.length + (userFrames s.machine.mem (pageBase cr3)).length ≤
        FREE_STACK_SIZE

instance (s : Sys) : (op : Op) → Decidable (Returned s op)
  | .createAddressSpace => isTrue trivial
  | .mapFresh _ virt _ _ => inferInstanceAs (Decidable (virt < 2 ^ 47))
  | .cloneUserAddressSpace _ => isFalse id
  | .destroyAddressSpace _ => inferInstanceAs (Decidable (_ ∧ _))

def NoLeak (s : Sys) : Prop :=
  (∃ K, Inv K s.machine s.roots) ∧ Balanced s.machine (s.machine.live s.roots)

theorem step_noLeak (s : Sys) (op : Op) (s' : Sys) (ok : NoLeak s) (returned : Returned s op)
    (stepped : step mapper s op = some s') : NoLeak s' := by
  obtain ⟨⟨K, inv⟩, bal⟩ := ok
  have safe : Safe s op := by
    cases op with
    | cloneUserAddressSpace cr3 => exact False.elim returned
    | _ => trivial
  refine ⟨step_inv s op s' ⟨K, inv⟩ safe stepped, ?_⟩
  cases op with
  | createAddressSpace =>
    obtain ⟨⟨result, m'⟩, run, rfl⟩ := map_eq_some_iff.mp stepped
    rcases createAddressSpace_cases inv.wf run with ⟨rfl, rfl⟩ | ⟨p, m₁, new, rfl, made⟩
    · exact bal
    · have lives := (inv.created new made).2
      have grown : Grown s.machine m' [p] := made ▸ new.grown.setFrame p _
      have bal := bal.grow grown
      rw [singleton_append, ← lives] at bal
      rwa [← pageBase_cr3 new.frame s.machine.cr3] at bal
  | mapFresh cr3 virt writable executable =>
    obtain ⟨live, stepped⟩ := ite_none_right_eq_some.mp stepped
    obtain ⟨m', run, rfl⟩ := map_eq_some_iff.mp stepped
    have perm := roots_perm live
    exact ((bal.perm perm).mapFresh (inv.perm perm) returned run).perm perm.symm
  | cloneUserAddressSpace cr3 => exact False.elim returned
  | destroyAddressSpace cr3 =>
    obtain ⟨live, stepped⟩ := ite_none_right_eq_some.mp stepped
    obtain ⟨m', run, rfl⟩ := map_eq_some_iff.mp stepped
    have perm := roots_perm live
    have inv := inv.perm perm
    have bal := bal.perm perm
    have root : pageBase cr3 ∈ s.machine.live (pageBase cr3 :: (s.spaces.erase cr3).map pageBase) :=
      mem_live.mpr ⟨_, .head _, root_mem_userFrames _ _⟩
    rcases destroyAddressSpace_cases run (inv.frame _ (.head _))
      (inv.plain _ (.head _)) with ⟨rfl, refused⟩ | gone
    · rcases refused with kernel | zero | recorded
      · exact absurd inv.kernel (kernel ▸ (inv.used _ root).2 3)
      · exact absurd zero (bal.held _ root)
      · cases returned.1.symm.trans recorded
    · exact bal.destroyed inv gone returned.2

/-- In every run of creations, mappings and destructions that meet the condition, once
    no space is left every frame that was handed out is back on the free stack. -/
theorem served_returned (mapper : Mapper) (m : Machine) (K : Nat → Set Nat) (boot : Boot K m)
    (bounded : m.fa.freeStack.length ≤ FREE_STACK_SIZE) (nonzero : 0 ∉ m.fa.avail)
    (fresh : m.served = []) {ops : List Op} {s : Sys}
    (returned : Along (step mapper) Returned ops ⟨m, []⟩)
    (run : exec (step mapper) ops ⟨m, []⟩ = some s) (done : s.spaces = []) :
    ∀ f ∈ s.machine.served, f ∈ s.machine.fa.freeStack := by
  have start : NoLeak ⟨m, []⟩ :=
    ⟨⟨K, boot.inv⟩, by simp [fresh], bounded, nonzero, by simp [Sys.roots, live]⟩
  obtain ⟨_, bal⟩ := invariant_along NoLeak step_noLeak start returned run
  intro f log
  refine (bal.accounted f log).resolve_right ?_
  simp [Sys.roots, done, live]

/-- A space is created, destroyed, and created again in the same frame. -/
def recycled : List Op :=
  [.createAddressSpace, .destroyAddressSpace 0x100000, .createAddressSpace,
    .destroyAddressSpace 0x100000]

theorem recycled_space_leaks :
    ∃ s, exec (step offsetPageTable) recycled ⟨bootMachine, []⟩ = some s ∧
      s.spaces = [] ∧ s.machine.served = [0x100000, 0x100000] ∧
      0x100000 ∉ s.machine.fa.freeStack := exists_of_any (by decide +kernel)

def twoSpaces : List Op :=
  [.createAddressSpace, .createAddressSpace, .mapFresh 0x100000 0x400000 true true,
    .destroyAddressSpace 0x101000, .destroyAddressSpace 0x100000]

theorem served_returned_twoSpaces :
    ∃ s, exec (step offsetPageTable) twoSpaces ⟨bootMachine, []⟩ = some s ∧
      s.machine.served.length = 6 ∧ ∀ f ∈ s.machine.served, f ∈ s.machine.fa.freeStack := by
  obtain ⟨s, reached, closed, six⟩ : ∃ s, exec (step offsetPageTable) twoSpaces ⟨bootMachine, []⟩ = some s ∧
      s.spaces = [] ∧ s.machine.served.length = 6 := exists_of_any (by decide +kernel)
  exact ⟨s, reached, six, served_returned offsetPageTable bootMachine bootRegion boot_bootMachine (by decide)
      (fun no => absurd (bootPlan_avail no) (by decide)) rfl (by decide +kernel) reached closed⟩

end Spaces

end Zenus.Mem
