import Zenus.Sys.MmapRuns
import Zenus.Sys.ShmFrames

/-! # What new pages show

The frames that `mmap` and `shmat` put into a space are not cleared: neither the call that
takes them from the allocator nor the one that maps them writes to them, so a new page reads
as its frame was left by whoever had it before.  The frames of an `mmap` are among those that
the allocator serves next, one for each page and up to three for the tables on its way.
-/

namespace Zenus.Sys

open Lib.Word Mem Mem.Machine Sched Sched.Scheduler Shared Option

/-- The frames that the allocator serves next. -/
def nextFrames : Nat → FrameAllocator → List Nat
  | 0, _ => []
  | n + 1, fa =>
    match fa.allocFrame with
    | some (some frame, fa') => frame :: nextFrames n fa'
    | _ => []

/-- What the second machine serves next, the first one serves with `n` frames more. -/
def Supplied (m m' : Machine) (n : Nat) : Prop :=
  ∀ k, nextFrames k m'.fa ⊆ nextFrames (n + k) m.fa

def ReadsZero (m : Machine) (frame : Nat) : Prop := ∀ i < 512, m.mem frame i = 0

/-- The segment's frames are in use, and not as tables of the space. -/
def ShmSegment.Held (seg : ShmSegment) (m : Machine) (r : Nat) : Prop :=
  ∀ f ∈ seg.run, IsFrame f ∧ f ∉ m.fa.avail ∧ ¬ IsTable m r f

/-- The calls that put memory into the space of a task, with the frames it can come from. -/
inductive MapsMemory : Machine → Nat → List Nat → Machine → Prop where
  | mmap {k k' : Memory} {mapper : Mapper} {cpu addr length prot flags start : Nat} {t : Task}
      (here : k.sched.getTask (k.sched.currentTaskId cpu) = some t)
      (run : k.sysMmap mapper cpu addr length prot flags = some (start, k')) (success : start ≠ WORD - 1) :
      MapsMemory k.machine t.cr3 (nextFrames (4 * ((length + 0xFFF) / 0x1000)) k.machine.fa) k'.machine
  | shmat {s s' : Shared} {mapper : Mapper} {task start : Nat} {slot : Fin MAX_SHMSEG} {t : Task}
      (here : s.sched.getTask task = some t) (held : (s.segments slot).Held s.machine (pageBase t.cr3))
      (run : s.sysShmat mapper task slot = some (start, s')) :
      MapsMemory s.machine t.cr3 (s.segments slot).run s'.machine

/-- A frame of the next `served` ones that is in use now, as no table, and has not been
    written to. -/
structure Shown (m m' : Machine) (r served frame : Nat) : Prop where
  next : frame ∈ nextFrames served m.fa
  used : frame ∉ m'.fa.avail
  other : ¬ IsTable m' r frame
  words : m'.mem frame = m.mem frame

/-- The pages that have been added show such frames. -/
structure Reveals (m m' : Machine) (r served : Nat) : Prop extends Local m m' r where
  supply : Supplied m m' served
  pages : ∀ n, 4096 * n < 2 ^ 47 → pageWord m' r n = pageWord m r n ∨ pageWord m r n = 0 ∧
    Shown m m' r served (frameAddr (pageWord m' r n))

variable {m m' m₁ : Machine} {r a cr3 count done prot task n k frame served virt flags l t : Nat}
  {mapper : Mapper} {p p' : Pages} {ok : Bool}

theorem nextFrames_mono (fa : FrameAllocator) (more : n ≤ k) : nextFrames n fa ⊆ nextFrames k fa := by
  induction n generalizing fa k with
  | zero => exact List.nil_subset _
  | succ n ih =>
    obtain ⟨k, rfl⟩ := Nat.exists_eq_add_of_le' (Nat.lt_of_lt_of_le n.succ_pos more)
    rw [nextFrames, nextFrames]
    split
    · exact List.cons_subset_cons _ (ih _ (by omega))
    · exact List.nil_subset _

theorem Supplied.same (same : m'.fa = m.fa) (n : Nat) : Supplied m m' n := by
  intro k
  rw [same]
  exact nextFrames_mono _ (by omega)

theorem Supplied.trans (first : Supplied m m₁ n) (second : Supplied m₁ m' k) : Supplied m m' (n + k) := by
  intro j
  rw [Nat.add_assoc]
  exact List.Subset.trans (second j) (first (k + j))

theorem nextFrames_allocFrame (got : m.allocFrame = some (some frame, m')) (n : Nat) :
    nextFrames (n + 1) m.fa = frame :: nextFrames n m'.fa := by
  obtain ⟨⟨first, fa⟩, inner, same⟩ := map_eq_some_iff.mp got
  cases same
  rw [nextFrames, inner]

theorem Supplied.allocFrame (got : m.allocFrame = some (some frame, m')) : Supplied m m' 1 := by
  intro k
  rw [Nat.add_comm, nextFrames_allocFrame got]
  exact List.subset_cons_self _ _

/-- A walk takes a frame for each level at most. -/
theorem mapWalk_supplied (walk : MapWalk virt frame flags l t m ok m') : Supplied m m' l := by
  induction walk with
  | mapped _ | taken _ | huge _ _ => exact .same rfl _
  | exhausted _ empty => exact .same (congrArg fa (allocFrame_none empty)) _
  | created _ fresh _ ih => exact Nat.add_comm 1 _ ▸ (Supplied.allocFrame fresh).trans ih
  | followed _ _ _ ih => exact Nat.add_comm 1 _ ▸ (Supplied.same rfl 1).trans ih

theorem Shown.mono (shown : Shown m m' r served frame) (more : served ≤ n) : Shown m m' r n frame :=
  ⟨nextFrames_mono _ more shown.next, shown.used, shown.other, shown.words⟩

theorem Shown.keep (shown : Shown m m₁ r served frame) (change : Local m₁ m' r) : Shown m m' r served frame :=
  ⟨shown.next, fun free => shown.used (change.sub free),
    fun table => (change.tables _ table).elim shown.other shown.used,
    (change.keep _ shown.used shown.other).trans shown.words⟩

theorem Reveals.refl (tree : Tree m r) : Reveals m m r 0 := ⟨.refl tree, .same rfl 0, fun _ _ => .inl rfl⟩

theorem Tree.taken (tree : Tree m r) (got : m.Allocated frame m') : Local m m' r := by
  refine ⟨tree.allocated got, ⟨_, got.grown⟩, fun f table => .inl ?_, fun f _ _ => by rw [got.store],
    fun f _ => by rw [got.store], fun i _ => by rw [got.store]⟩
  rwa [IsTable, got.store] at table

theorem Reveals.next (reveals : Reveals m m₁ r served) (change : Local m₁ m' r) (supply : Supplied m₁ m' k) (n : Nat)
    (others : ∀ k, 4096 * k < 2 ^ 47 → k ≠ n → pageWord m' r k = pageWord m₁ r k)
    (here : 4096 * n < 2 ^ 47 → pageWord m' r n = pageWord m₁ r n ∨ pageWord m₁ r n = 0 ∧
      Shown m m' r (served + k) (frameAddr (pageWord m' r n))) : Reveals m m' r (served + k) := by
  have kept : ∀ j, 4096 * j < 2 ^ 47 → pageWord m' r j = pageWord m₁ r j →
      pageWord m' r j = pageWord m r j ∨ pageWord m r j = 0 ∧
        Shown m m' r (served + k) (frameAddr (pageWord m' r j)) := by
    intro j user same
    rw [same]
    refine (reveals.pages j user).imp_right fun ⟨vacant, shown⟩ => ⟨vacant, ?_⟩
    exact (shown.keep change).mono (Nat.le_add_right ..)
  refine ⟨reveals.toLocal.trans change, reveals.supply.trans supply, fun j user => ?_⟩
  by_cases same : j = n
  · subst same
    rcases here user with old | ⟨vacant, rest⟩
    · exact kept j user old
    · refine .inr ⟨?_, rest⟩
      rcases reveals.pages j user with old | ⟨empty, -⟩
      · exact old.symm.trans vacant
      · exact empty
  · exact kept j user (others j user same)

/-- A page takes a frame of its own and up to three for its tables. -/
theorem mmapPage_reveals (reveals : Reveals m p.machine (pageBase cr3) served)
    (user : 4096 * n < 2 ^ 47) (run : p.mmapPage mapper task cr3 (4096 * n) prot = some (true, p')) :
    Reveals m p'.machine (pageBase cr3) (served + 4) := by
  unfold Pages.mmapPage at run
  split at run
  · cases run
  · split at run
    · cases run
    · cases run
    · next frame m₁ first =>
      obtain ⟨⟨ok, m₂⟩, mapped, same⟩ := map_eq_some_iff.mp run
      cases same
      have got := allocFrame_some reveals.tree.wf first
      have taken := Tree.taken reveals.tree got
      have words : ∀ k, pageWord m₁ (pageBase cr3) k = pageWord p.machine (pageBase cr3) k := fun k => by
        rw [pageWord, got.store]
        rfl
      have served₁ := Supplied.allocFrame first
      rcases mapUserPageRaw_cases mapped with ⟨-, rfl⟩ | ⟨flags, ⟨good, -⟩, isFrame, walk⟩
      · exact reveals.next taken (served₁.trans (.same rfl 3)) n (fun k _ _ => words k) fun _ => .inl (words n)
      · rw [got.frame.pageBase] at walk
        have change := taken.tree.mapped walk good user
        -- the frame was available and is not taken for a table
        have used : frame ∉ m₁.fa.avail := fun free => (got.sub free).2 rfl
        have other : ¬ IsTable m₁ (pageBase cr3) frame := fun table => by
          obtain ⟨d, deep, v, inside, here⟩ := table
          rw [got.store] at here
          exact reveals.tree.used deep inside here got.mem
        refine reveals.next (taken.trans change.toLocal) (served₁.trans (mapWalk_supplied walk)) n
          (fun k inside no => ?_) fun _ => ?_
        · exact (change.pages _ inside).trans ((if_neg fun both => no (by have := both.2; omega)).trans (words k))
        · cases ok with
          | false => exact .inl ((change.pages _ user).trans ((if_neg fun no => Bool.noConfusion no.1).trans (words n)))
          | true =>
            have word : pageWord m₂ (pageBase cr3) n = frame ||| flags :=
              (change.pages _ user).trans (if_pos ⟨rfl, rfl⟩)
            have address : frameAddr (pageWord m₂ (pageBase cr3) n) = frame := by
              rw [word, frameAddr, Nat.and_or_distrib_right, good.1, Nat.or_zero]
              exact got.frame
            refine .inr ⟨(words n).symm.trans (change.vacant rfl), ?_⟩
            rw [address]
            refine ⟨reveals.supply 4 ?_, fun free => used (change.sub free), fun table => ?_, ?_⟩
            · rw [nextFrames_allocFrame first]
              exact List.mem_cons_self
            · exact (change.tables _ table).elim other used
            · rw [change.keep _ used other, got.store]
              exact reveals.free _ got.mem

theorem mmapPages_reveals (tree : Tree p.machine (pageBase cr3)) (user : 4096 * (a + count) ≤ 2 ^ 47)
    (run : p.mmapPages mapper task cr3 (4096 * a) prot count = some (true, done, p')) :
    Reveals p.machine p'.machine (pageBase cr3) (4 * count) := by
  refine (Lib.Loop.upTo_outcome (P := fun i s => Reveals p.machine s.2.machine (pageBase cr3) (4 * i))
    (Q := fun _ => True) (fun i inside s s' ok before round => ⟨fun more => ?_, fun _ => trivial⟩)
    (.refl tree) run).1 rfl
  obtain ⟨⟨ok, p₂⟩, once, same⟩ := map_eq_some_iff.mp round
  cases same
  cases more
  have address : wadd (4096 * a) (i * 0x1000) = 4096 * (a + i) := by
    rw [wadd_of_lt (by rw [WORD_eq]; omega)]
    omega
  rw [address] at once
  exact mmapPage_reveals before (by omega) once

variable {source : List Nat}

theorem MapsMemory.shows (maps : MapsMemory m cr3 source m') (tree : Tree m (pageBase cr3))
    (appears : Appears m m' cr3 n frame) : frame ∈ source ∧ m'.mem frame = m.mem frame := by
  cases maps with
  | @mmap k k' mapper cpu addr length prot flags start t here run success =>
    obtain ⟨user, before, after⟩ := appears
    obtain ⟨a, count, done, slot, p, vma, -, least, less, fits, pages, inserted, rfl⟩ :=
      sysMmap_some here run success
    -- the area was recorded, so it does not wrap around
    obtain ⟨order, room, -⟩ := VmaTable.live_insert_some inserted
    have bound : 4096 * (a + count) ≤ 2 ^ 47 := by
      unfold MAX_MAPPING_SIZE at room fits
      rw [wadd, WORD_eq] at room order
      omega
    have reveals := mmapPages_reveals tree bound pages
    have mapped : p.machine.virtToPhysRaw t.cr3 (4096 * n) = some frame := after
    rw [reveals.tree.virtToPhysRaw_page user] at mapped
    rcases reveals.pages n user with same | ⟨-, shown⟩
    · rw [same] at mapped
      exact absurd (before.symm.trans ((tree.virtToPhysRaw_page user).trans mapped)) (some_ne_none _).symm
    · split_ifs at mapped
      cases mapped
      rw [show (length + 0xFFF) / 0x1000 = count by omega]
      exact ⟨shown.next, shown.words⟩
  | @shmat s s' mapper task start slot t here held run =>
    rcases sysShmat_cases run with ⟨-, rfl⟩ | ⟨slot', t', a, attempts, attach⟩
    · exact absurd (appears.2.1.symm.trans appears.2.2) (some_ne_none _).symm
    · cases Fin.ext attempts.known
      cases attempts.task.symm.trans here
      obtain ⟨change, places⟩ := attach_appears attempts attach tree
      obtain ⟨inside, rfl⟩ := places n frame appears
      have member : _ ∈ (s.segments slot).run := mem_run.mpr ⟨n - a, by omega, rfl⟩
      obtain ⟨isFrame, used, other⟩ := held _ member
      rw [isFrame.pageBase]
      exact ⟨member, change.keep _ used other⟩

/-- Every page that a call adds to a space reads as zero if the frames that the allocator
    serves next, or those of the segment, are zero; and what one of them holds instead is
    read at its page. -/
theorem new_pages_zero (maps : MapsMemory m cr3 source m') (tree : Tree m (pageBase cr3)) :
    ((∀ frame ∈ source, ReadsZero m frame) → ∀ n frame, Appears m m' cr3 n frame → ReadsZero m' frame) ∧
    ∀ n frame, Appears m m' cr3 n frame → frame ∈ source ∧ (ReadsZero m' frame ↔ ReadsZero m frame) := by
  have same : ∀ n frame, Appears m m' cr3 n frame → frame ∈ source ∧ (ReadsZero m' frame ↔ ReadsZero m frame) := by
    intro n frame appears
    obtain ⟨member, words⟩ := maps.shows tree appears
    rw [ReadsZero, ReadsZero, words]
    exact ⟨member, Iff.rfl⟩
  refine ⟨fun zero n frame appears => ?_, same⟩
  obtain ⟨member, shows⟩ := same n frame appears
  exact shows.mpr (zero frame member)

/-- A machine in whose first free frame somebody has left a word. -/
def leftover (word : Nat) : Machine :=
  { Spaces.bootMachine with mem := fun f i => if f = 0x100000 ∧ i = 0 then word else 0 }

theorem tree_leftover (word : Nat) : Tree (leftover word) (pageBase 0x6000) := by
  have root : pageBase 0x6000 = 0x6000 := by decide
  rw [root]
  refine tree_of_empty wf_bootPlan (fun free => ?_) fun i _ => by simp [leftover]
  have := bootPlan_avail free
  omega

/-- A page of a task on this machine, mapped by `mmap`. -/
def afterMmap (word : Nat) : Option (Nat × Memory) :=
  Memory.sysMmap ⟨alone { plain with cr3 := 0x6000 }, leftover word, []⟩ offsetPageTable 0 0x500000000000
    0x1000 3 0x22

/-- If nothing was left in it, the new page is zero. -/
theorem new_pages_zero_clean :
    ∃ start k', afterMmap 0 = some (start, k') ∧ Appears (leftover 0) k'.machine 0x6000 0x500000000 0x100000 ∧
      ∀ n frame, Appears (leftover 0) k'.machine 0x6000 n frame → ReadsZero k'.machine frame := by
  obtain ⟨⟨_, k'⟩, made, rfl, shown⟩ : ∃ made, afterMmap 0 = some made ∧ made.1 = 0x500000000000 ∧
      made.2.machine.virtToPhysRaw 0x6000 0x500000000000 = some 0x100000 :=
    Lib.Run.exists_of_any (by decide +kernel)
  have maps := MapsMemory.mmap (t := { plain with cr3 := 0x6000 }) rfl made (by decide)
  refine ⟨_, k', made, ⟨by decide, by decide +kernel, shown⟩, ?_⟩
  exact (new_pages_zero maps (tree_leftover 0)).1 fun frame _ i _ => ite_self 0

def afterShmat (word : Nat) : Option (Nat × Shared) :=
  ((Shared.office (leftover word)).findOrCreate 1 0x1000).bind fun made =>
    made.2.sysShmat offsetPageTable 1 0

def firstWord (m : Machine) (virt : Nat) : Option Nat := (m.virtToPhysRaw 0x6000 virt).map fun f => m.mem f 0

/-- Two machines that differ in a free frame only are told apart by a program that maps a
    page or attaches a new segment. -/
theorem leftover_visible :
    (afterMmap 0).map (fun made => firstWord made.2.machine 0x500000000000) = some (some 0) ∧
    (afterMmap 0x5EC).map (fun made => firstWord made.2.machine 0x500000000000) = some (some 0x5EC) ∧
    (afterShmat 0).map (fun made => firstWord made.2.machine 0x300000000000) = some (some 0) ∧
    (afterShmat 0x5EC).map (fun made => firstWord made.2.machine 0x300000000000) = some (some 0x5EC) ∧
    ∃ start k', afterMmap 0x5EC = some (start, k') ∧
      MapsMemory (leftover 0x5EC) 0x6000 (nextFrames 4 (leftover 0x5EC).fa) k'.machine ∧
      ¬ ∀ n frame, Appears (leftover 0x5EC) k'.machine 0x6000 n frame → ReadsZero k'.machine frame := by
  refine ⟨by decide +kernel, by decide +kernel, by decide +kernel, by decide +kernel, ?_⟩
  obtain ⟨⟨_, k'⟩, made, rfl, shown, word⟩ : ∃ made, afterMmap 0x5EC = some made ∧ made.1 = 0x500000000000 ∧
      made.2.machine.virtToPhysRaw 0x6000 0x500000000000 = some 0x100000 ∧
      made.2.machine.mem 0x100000 0 = 0x5EC := Lib.Run.exists_of_any (by decide +kernel)
  refine ⟨_, k', made, .mmap (t := { plain with cr3 := 0x6000 }) rfl made (by decide), fun zero => ?_⟩
  have first := zero 0x500000000 0x100000 ⟨by decide, by decide +kernel, shown⟩ 0 (by decide)
  rw [word] at first
  cases first

end Zenus.Sys
