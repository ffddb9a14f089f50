import Zenus.Mem.Spaces
import Zenus.Sys.ShmPages

/-! # The frames of a segment

`shmget` allocates the frames of a segment one by one and keeps the first.  What `shmat`
maps and what destroying the segment gives back are the frames that follow the first one;
these are the frames of the segment exactly if the allocator has handed out consecutive
frames, starting with the lowest.
-/

namespace Zenus.Sys

open Lib.Word Mem Mem.Machine Sched Sched.Scheduler Function Option ShmSegment

/-- The frames are those that follow the first, in any order. -/
def Consecutive (frames : List Nat) : Prop :=
  frames.Perm ((List.range frames.length).map fun p => frames.headD 0 + p * 0x1000)

instance (frames : List Nat) : Decidable (Consecutive frames) :=
  inferInstanceAs (Decidable (List.Perm _ _))

/-- A page of the program is translated that was not before. -/
def Appears (m m' : Machine) (cr3 n frame : Nat) : Prop :=
  4096 * n < 2 ^ 47 ∧ m.virtToPhysRaw cr3 (4096 * n) = none ∧ m'.virtToPhysRaw cr3 (4096 * n) = some frame

variable {m m' : Machine} {s s' s₁ s₂ : Shared} {slot : Fin MAX_SHMSEG} {mapper : Mapper} {t : Task}
  {frames : List Nat} {task key size result shmid a n frame count start endAddr : Nat}

/-! ## Taking the frames -/

theorem shmPageCount_some (counted : shmPageCount size = some count) :
    count = (size + 0xFFF) / 0x1000 ∧ 0 < size ∧ size ≤ MAX_MAPPING_SIZE := by
  unfold shmPageCount at counted
  split_ifs at counted with bad
  obtain ⟨sum, added, rfl⟩ := map_eq_some_iff.mp counted
  rw [eq_of_checkedAdd added]
  exact ⟨rfl, by omega, by omega⟩

/-- The frames that the loop of `shmget` has taken. -/
structure Taken (m m' : Machine) (frames : List Nat) : Prop where
  store : m'.mem = m.mem
  frame : ∀ f ∈ frames, IsFrame f
  grown : ∃ new, new.Perm frames ∧ Grown m m' new

theorem takeFrames_spec {all : Option (List Nat)} (wf : m.fa.Wf) (run : takeFrames count m = some (all, m')) :
    ∃ frames, Taken m m' frames ∧ ∀ got, all = some got → got = frames ∧ got.length = count := by
  induction count generalizing m all with
  | zero =>
    cases run
    refine ⟨[], ⟨rfl, by simp, [], .refl _, .refl wf⟩, ?_⟩
    rintro _ ⟨⟩
    exact ⟨rfl, rfl⟩
  | succ count ih =>
    unfold takeFrames at run
    split at run
    · cases run
    · next empty =>
      cases run
      cases allocFrame_none empty
      exact ⟨[], ⟨rfl, by simp, [], .refl _, .refl wf⟩, by simp⟩
    · next frame m₁ first =>
      obtain ⟨⟨rest, m₂⟩, later, same⟩ := map_eq_some_iff.mp run
      cases same
      have took := allocFrame_some wf first
      obtain ⟨tail, ⟨store, isFrame, new, perm, grown⟩, whole⟩ := ih took.wf later
      refine ⟨frame :: tail, ⟨store.trans took.store, ?_, new ++ [frame], ?_, took.grown.trans grown⟩, ?_⟩
      · rintro f (_ | ⟨_, tail⟩)
        · exact took.frame
        · exact isFrame f tail
      · exact (List.perm_append_singleton ..).trans (perm.cons _)
      · intro got cons
        obtain ⟨got, some, rfl⟩ := map_eq_some_iff.mp cons
        obtain ⟨rfl, length⟩ := whole got some
        exact ⟨rfl, congrArg (· + 1) length⟩

namespace Shared

/-- A new segment, and the frames it was given. -/
structure Creates (s s' : Shared) (slot : Fin MAX_SHMSEG) (key size : Nat) (frames : List Nat) : Prop where
  taken : Taken s.machine s'.machine frames
  length : frames.length = (size + 0xFFF) / 0x1000
  bounds : 0 < size ∧ size ≤ MAX_MAPPING_SIZE
  unused : (s.segments slot).valid = false
  state : s' = { s with
    segments := update s.segments slot ⟨key, size, frames.headD 0, 1, 0, true⟩
    machine := s'.machine
    taken := update s.taken slot frames }

theorem create_cases {found : Option (Fin MAX_SHMSEG)} (wf : s.machine.fa.Wf)
    (run : s.create key size = some (found, s')) :
    (∃ slot frames, found = some slot ∧ Creates s s' slot key size frames) ∨
      found = none ∧ s' = { s with machine := s'.machine } ∧
        (s'.machine = s.machine ∨ ∃ count, takeFrames count s.machine = some (none, s'.machine)) := by
  unfold create at run
  split at run
  · cases run
    exact .inr ⟨rfl, rfl, .inl rfl⟩
  · next slot first =>
    split at run
    · cases run
      exact .inr ⟨rfl, rfl, .inl rfl⟩
    · next count counted =>
      obtain ⟨⟨frames, m'⟩, took, same⟩ := map_eq_some_iff.mp run
      cases frames with
      | none =>
        cases same
        exact .inr ⟨rfl, rfl, .inr ⟨count, took⟩⟩
      | some frames =>
        cases same
        obtain ⟨_, taken, all⟩ := takeFrames_spec wf took
        obtain ⟨rfl, length⟩ := all _ rfl
        obtain ⟨rfl, positive, small⟩ := shmPageCount_some counted
        refine .inl ⟨slot, frames, rfl, taken, length, ⟨positive, small⟩, ?_, rfl⟩
        simpa [findUnused] using List.find?_some first

/-! ## Mapping them -/

/-- What `shmat` finds before it maps the pages. -/
structure Attempts (s : Shared) (task shmid : Nat) (slot : Fin MAX_SHMSEG) (t : Task) (a : Nat) : Prop where
  known : slot.val = shmid
  valid : (s.segments slot).valid = true
  task : s.sched.getTask task = some t
  found : t.vma.findFree (s.segments slot).size SHM_HINT = some (4096 * a)
  room : 4096 * (a + (s.segments slot).pages) ≤ MAX_MAPPING_SIZE

theorem sysShmat_cases (run : s.sysShmat mapper task shmid = some (result, s')) :
    (result = WORD - 1 ∧ s' = s) ∨ ∃ slot t a, Attempts s task shmid slot t a ∧
      s.attach mapper task t slot (4096 * a) (s.segments slot).pages (4096 * (a + (s.segments slot).pages)) =
        some (result, s') := by
  have refused : some (WORD - 1, s) = some (result, s') → result = WORD - 1 ∧ s' = s := by
    intro same
    cases same
    exact ⟨rfl, rfl⟩
  unfold sysShmat at run
  dsimp only at run
  split at run
  · next known =>
    split at run
    · exact .inl (refused run)
    · next valid =>
      split at run
      · exact .inl (refused run)
      · next t task =>
        split at run
        · exact .inl (refused run)
        · next nonzero =>
          split at run
          · exact .inl (refused run)
          · next count counted =>
            split at run
            · exact .inl (refused run)
            · next endAddr added =>
              cases search : t.vma.findFree (s.segments ⟨shmid, known⟩).size SHM_HINT with
              | none =>
                rw [search] at nonzero
                exact absurd rfl nonzero
              | some start =>
                obtain ⟨⟨a, rfl⟩, room⟩ := VmaTable.findFree_spec search
                obtain ⟨rfl, -, -⟩ := shmPageCount_some counted
                cases eq_of_checkedAdd added
                rw [search] at run
                refine .inr ⟨⟨shmid, known⟩, t, a, ⟨rfl, by simpa using valid, task, search, ?_⟩, ?_⟩
                · rw [pages]
                  unfold MAX_MAPPING_SIZE at room ⊢
                  omega
                · rw [pages, Nat.mul_add, Nat.mul_comm 4096 (_ / _)]
                  exact run
  · exact .inl (refused run)

/-- What `shmat` leaves behind if it succeeds. -/
def attached (s : Shared) (m : Machine) (task : Nat) (vma : VmaTable) (slot : Fin MAX_SHMSEG) (start : Nat) :
    Shared :=
  { s with
    machine := m
    sched := s.sched.changeTask task fun t => { t with vma := vma }
    segments := update s.segments slot
      { s.segments slot with mappedAt := start, attached := (s.segments slot).attached + 1 }
    attachments := ⟨task, start, slot⟩ :: s.attachments }

theorem attach_cases (run : s.attach mapper task t slot start count endAddr = some (result, s')) :
    ∃ ok m, attachPages mapper t.cr3 start (s.segments slot).phys count s.machine = some (ok, m) ∧
      ((result = WORD - 1 ∧ ok = false ∧ s' = { s with machine := m }) ∨
        (result = WORD - 1 ∧ s' = { s with machine := detachPages t.cr3 start count m }) ∨
        ∃ i vma, result = start ∧ t.vma.insert start endAddr 3 1 = (some i, vma) ∧
          s' = s.attached m task vma slot start) := by
  obtain ⟨⟨ok, m⟩, pages, same⟩ := map_eq_some_iff.mp run
  refine ⟨ok, m, pages, ?_⟩
  dsimp only at same
  split at same
  · next left =>
    cases same
    exact .inl ⟨rfl, left, rfl⟩
  · split at same
    · cases same
      exact .inr (.inl ⟨rfl, rfl⟩)
    · next i vma inserted =>
      cases same
      exact .inr (.inr ⟨i, vma, rfl, inserted, rfl⟩)

theorem attach_appears (attempts : Attempts s task shmid slot t a)
    (run : s.attach mapper task t slot (4096 * a) (s.segments slot).pages
      (4096 * (a + (s.segments slot).pages)) = some (result, s')) (tree : Tree s.machine (pageBase t.cr3)) :
    Local s.machine s'.machine (pageBase t.cr3) ∧
      ∀ n frame, Appears s.machine s'.machine t.cr3 n frame → (a ≤ n ∧ n < a + (s.segments slot).pages) ∧
        frame = pageBase ((s.segments slot).phys + (n - a) * 0x1000) := by
  have room : 4096 * (a + (s.segments slot).pages) ≤ 2 ^ 47 :=
    attempts.room.trans (by unfold MAX_MAPPING_SIZE; decide)
  obtain ⟨ok, m, pages, outcome⟩ := attach_cases run
  have attaches := (attachPages_spec tree room pages).1
  have mapped : ∀ n frame, Appears s.machine m t.cr3 n frame → (a ≤ n ∧ n < a + (s.segments slot).pages) ∧
      frame = pageBase ((s.segments slot).phys + (n - a) * 0x1000) := by
    rintro n frame ⟨user, before, after⟩
    rw [attaches.tree.virtToPhysRaw_page user] at after
    rcases attaches.pages n user with same | ⟨inside, -, some, frame⟩
    · rw [same, ← tree.virtToPhysRaw_page user, before] at after
      cases after
    · rw [if_neg some] at after
      exact ⟨inside, (Option.some.inj after).symm.trans frame⟩
  rcases outcome with ⟨-, -, rfl⟩ | ⟨-, rfl⟩ | ⟨i, vma, -, -, rfl⟩
  · exact ⟨attaches.toLocal, mapped⟩
  · -- what was mapped has been cleared
    have clears := detachPages_spec attaches.tree room
    refine ⟨attaches.toLocal.trans clears.toLocal, fun n frame ⟨user, before, after⟩ => ?_⟩
    refine mapped n frame ⟨user, before, ?_⟩
    rw [clears.tree.virtToPhysRaw_page user, clears.pages n user] at after
    by_cases inside : a ≤ n ∧ n < a + (s.segments slot).pages
    · rw [if_pos inside, if_pos rfl] at after
      cases after
    · rwa [if_neg inside, ← attaches.tree.virtToPhysRaw_page user] at after
  · exact ⟨attaches.toLocal, mapped⟩

/-! ## Giving them back -/

theorem foldlM_freePhys (all : ∀ f ∈ frames, IsFrame f) (fa : FrameAllocator) :
    frames.foldlM freePhys fa = some (frames.foldl FrameAllocator.freeFrame fa) := by
  induction frames generalizing fa with
  | nil => rfl
  | cons f rest ih =>
    rw [List.foldlM_cons, freePhys_frame (all f (.head _))]
    exact ih (fun g member => all g (.tail _ member)) _

def released (s : Shared) (slot : Fin MAX_SHMSEG) : Shared :=
  { s with
    segments := update s.segments slot { s.segments slot with valid := false }
    machine := { s.machine with fa := (s.segments slot).run.foldl FrameAllocator.freeFrame s.machine.fa }
    returned := (s.segments slot).run.reverse ++ s.returned }

theorem release_some (all : ∀ f ∈ (s.segments slot).run, IsFrame f) : s.release slot = some (s.released slot) := by
  rw [release, foldlM_freePhys all]
  rfl

theorem release_returned (run : s.release slot = some s') :
    s'.returned = (s.segments slot).run.reverse ++ s.returned := by
  obtain ⟨fa, -, rfl⟩ := map_eq_some_iff.mp run
  rfl

/-! ## The frames of a segment are its own -/

/-- The state after a call that destroys a segment has returned the segment's frames, each
    once, and no others. -/
def Returns (s : Shared) (slot : Fin MAX_SHMSEG) (after : Option Shared) : Prop :=
  ∃ s' ∈ after, ∃ back, s'.returned = back ++ s.returned ∧ back.Perm (s.taken slot)

/-- The frames of the segment are its own: what a call of `shmat` makes appear in a task are
    frames that were allocated for the segment, different ones on different pages, and
    destroying the segment returns them, by `shmctl` or with the last reference. -/
structure OwnFrames (s : Shared) (slot : Fin MAX_SHMSEG) : Prop where
  maps : ∀ mapper task t result s', s.sched.getTask task = some t → Tree s.machine (pageBase t.cr3) →
    s.sysShmat mapper task slot = some (result, s') → ∀ n frame, Appears s.machine s'.machine t.cr3 n frame →
      frame ∈ s.taken slot ∧ ∀ n', Appears s.machine s'.machine t.cr3 n' frame → n' = n
  removed : s.Returns slot ((s.sysShmctl slot IPC_RMID).map Prod.snd)
  detached : (s.segments slot).attached = 1 → s.Returns slot (s.detach slot)

/-- The segment is still there. -/
structure SameSegment (s s' : Shared) (slot : Fin MAX_SHMSEG) : Prop where
  valid : (s'.segments slot).valid = true
  phys : (s'.segments slot).phys = (s.segments slot).phys
  size : (s'.segments slot).size = (s.segments slot).size
  taken : s'.taken slot = s.taken slot

theorem sysShmctl_remove (valid : (s.segments slot).valid = true) :
    (s.sysShmctl slot IPC_RMID).map Prod.snd = s.release slot := by
  simp [sysShmctl, valid, map_map, Function.comp_def]

theorem detach_last (valid : (s.segments slot).valid = true) (last : (s.segments slot).attached = 1) :
    s.detach slot = (s.setSegment slot { s.segments slot with attached := 0 }).release slot := by
  simp [detach, valid, last]

theorem mem_run {seg : ShmSegment} : frame ∈ seg.run ↔ ∃ i < seg.pages, seg.phys + i * 0x1000 = frame := by
  simp [run]

theorem Creates.run (creates : Creates s s' slot key size frames) :
    (s'.segments slot).run = (List.range frames.length).map fun p => frames.headD 0 + p * 0x1000 := by
  rw [creates.state, creates.length]
  simp only [update_self]
  rfl

/-- In every state in which the segment exists, its frames are its own, if and only if it was
    given consecutive frames. -/
theorem own_frames_iff (wf : s.machine.fa.Wf) (new : s.findKey key = none)
    (made : s.findOrCreate key size = some (some slot, s₁)) :
    (∀ s₂, SameSegment s₁ s₂ slot → OwnFrames s₂ slot) ↔ Consecutive (s₁.taken slot) := by
  have run : s.create key size = some (some slot, s₁) := by
    rwa [findOrCreate, new] at made
  obtain ⟨slot, frames, same, creates⟩ | ⟨no, -⟩ := create_cases wf run
  swap
  · cases no
  cases same
  have taken : s₁.taken slot = frames := by
    rw [creates.state]
    exact update_self ..
  have known : (s₁.segments slot).valid = true := by
    rw [creates.state]
    simp only [update_self]
  rw [Consecutive, taken, ← creates.run]
  constructor
  · intro own
    obtain ⟨s', returned, back, log, perm⟩ := (own s₁ ⟨known, rfl, rfl, rfl⟩).removed
    rw [sysShmctl_remove known] at returned
    rw [release_returned returned, List.append_left_inj] at log
    rw [← log, taken] at perm
    exact perm.symm.trans (List.reverse_perm _)
  · intro consecutive s₂ still
    have length : (s₂.segments slot).run = (s₁.segments slot).run := by
      rw [ShmSegment.run, ShmSegment.run, ShmSegment.pages, ShmSegment.pages, still.phys, still.size]
    have all : ∀ f ∈ (s₂.segments slot).run, IsFrame f ∧ f ∈ s₂.taken slot := by
      intro f member
      rw [length] at member
      have member := consecutive.mem_iff.mpr member
      exact ⟨creates.taken.frame f member, by rwa [still.taken, taken]⟩
    have back : (s₂.segments slot).run.reverse.Perm (s₂.taken slot) := by
      rw [still.taken, taken, length]
      exact (List.reverse_perm _).trans consecutive.symm
    refine ⟨?_, ?_, fun last => ?_⟩
    · intro mapper task t result s' here tree run n frame appears
      rcases sysShmat_cases run with ⟨-, rfl⟩ | ⟨slot', t', a, attempts, attach⟩
      · obtain ⟨-, before, after⟩ := appears
        rw [before] at after
        cases after
      · obtain rfl : slot' = slot := Fin.ext attempts.known
        obtain rfl : t' = t := some.inj (attempts.task.symm.trans here)
        have place : ∀ n', Appears s₂.machine s'.machine t'.cr3 n' frame → a ≤ n' ∧
            (s₂.segments slot').phys + (n' - a) * 0x1000 = frame ∧ frame ∈ s₂.taken slot' := by
          intro n' appears
          obtain ⟨inside, same⟩ := (attach_appears attempts attach tree).2 n' frame appears
          obtain ⟨isFrame, own⟩ := all _ (mem_run.mpr ⟨n' - a, by omega, rfl⟩)
          rw [isFrame.pageBase] at same
          exact ⟨inside.1, same.symm, same ▸ own⟩
        obtain ⟨low, here, own⟩ := place n appears
        refine ⟨own, fun n' appears' => ?_⟩
        obtain ⟨low', here', -⟩ := place n' appears'
        omega
    · rw [sysShmctl_remove still.valid, release_some fun f member => (all f member).1]
      exact ⟨_, rfl, _, rfl, back⟩
    · rw [detach_last still.valid last]
      refine ⟨_, release_some fun f member => ?_, _, rfl, ?_⟩
      · simp only [setSegment, update_self] at member
        exact (all f member).1
      · simp only [setSegment, update_self]
        exact back

def office (m : Machine) : Shared where
  sched := alone { plain with cr3 := 0x6000 }
  machine := m
  segments := noSegments
  taken _ := []
  returned := []
  attachments := []

/-- After boot the frames are handed out in order. -/
theorem own_frames_boot :
    ∃ s₁, (office Spaces.bootMachine).findOrCreate 1 0x1801 = some (some 0, s₁) ∧
      s₁.taken 0 = [0x100000, 0x101000] ∧ ∀ s₂, SameSegment s₁ s₂ 0 → OwnFrames s₂ 0 := by
  obtain ⟨⟨_, s₁⟩, made, rfl, taken⟩ : ∃ r, (office Spaces.bootMachine).findOrCreate 1 0x1801 = some r ∧
      r.1 = some 0 ∧ r.2.taken 0 = [0x100000, 0x101000] := Lib.Run.exists_of_any (by decide +kernel)
  refine ⟨s₁, made, taken, (own_frames_iff wf_bootPlan (by decide +kernel) made).mpr ?_⟩
  rw [show s₁.taken 0 = _ from taken]
  decide

/-- Of three frames in use, the first two have been given back in their order. -/
def recycled : Machine :=
  ((takeFrames 3 Spaces.bootMachine).map fun taken =>
    { taken.2 with fa := (taken.2.fa.freeFrame 0x100000).freeFrame 0x101000 }).getD Spaces.bootMachine

/-- What happens to the two pages of a segment that is attached or destroyed. -/
def fate (s : Shared) : Option (List (Option Nat)) × Option (List Nat) :=
  ((s.sysShmat offsetPageTable 1 0).map fun (start, s) =>
      [s.machine.virtToPhysRaw 0x6000 start, s.machine.virtToPhysRaw 0x6000 (start + 0x1000)],
    (s.sysShmctl 0 IPC_RMID).map fun (_, s) => s.returned)

/-- The allocator hands out the two frames in the other order: the second page shows the
    third frame, which is in use, and it is given back as well. -/
theorem foreign_frame_mapped :
    (office recycled).findKey 1 = none ∧
      ∃ s₁, (office recycled).findOrCreate 1 0x2000 = some (some 0, s₁) ∧ s₁.taken 0 = [0x101000, 0x100000] ∧
        fate s₁ = (some [some 0x101000, some 0x102000], some [0x102000, 0x101000]) ∧ ¬ OwnFrames s₁ 0 := by
  obtain ⟨⟨_, s₁⟩, made, rfl, taken, returned, seen⟩ : ∃ r, (office recycled).findOrCreate 1 0x2000 = some r ∧
      r.1 = some 0 ∧ r.2.taken 0 = [0x101000, 0x100000] ∧ r.2.returned = [] ∧
      fate r.2 = (some [some 0x101000, some 0x102000], some [0x102000, 0x101000]) :=
    Lib.Run.exists_of_any (by decide +kernel)
  refine ⟨by decide +kernel, s₁, made, taken, seen, fun own => ?_⟩
  obtain ⟨s', after, back, log, perm⟩ := own.removed
  rw [returned, List.append_nil] at log
  obtain ⟨⟨result, s''⟩, removed, rfl⟩ := map_eq_some_iff.mp after
  have gone := (Prod.mk.inj seen).2
  simp only [show s₁.sysShmctl 0 IPC_RMID = _ from removed, map_some, some.injEq] at gone
  rw [← log, gone, taken] at perm
  exact absurd perm (by decide)

end Shared

end Zenus.Sys
