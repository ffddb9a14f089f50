import Zenus.Fs.CgroupRuns
import Zenus.Mem.AreaMap
import Zenus.Sys.Mmap

/-! # Areas, page tables and accounts

The areas of a task, its page tables and the account of its group are three records of
one thing: which pages of the range for mappings the task has, and with what rights.
`mmap` changes the three alike unless a table for its pages cannot be had, which it does
not notice.  `munmap` and `mprotect` work on pages in the tables and on whole areas in
the list of areas, and agree with themselves only if no area sticks out of their range.
-/

namespace Zenus.Sys

open Lib.Word Mem Mem.Machine Mem.VmaTable Sched Sched.Scheduler Fs.CgroupTable Function List Option Bool Finset

/-- The rights to write and to execute that a protection gives. -/
def rightsOf (prot : Nat) : Bool × Bool := (prot &&& PROT_WRITE != 0, prot &&& PROT_EXEC != 0)

/-- The rights of a page by the areas of the task. -/
def rightsAt (vma : VmaTable) (n : Nat) : Option (Bool × Bool) :=
  (vma.live.find? (·.contains (4096 * n))).map fun r => rightsOf r.prot

/-- The areas that meet the range lie in it and have whole pages. -/
def Inside (lo hi : Nat) (vma : VmaTable) : Prop :=
  ∀ r ∈ vma.live, r.start < 4096 * hi → 4096 * lo < r.endAddr →
    ∃ a b, lo ≤ a ∧ b ≤ hi ∧ r.start = 4096 * a ∧ r.endAddr = 4096 * b

/-- The three records of a task agree on the pages from number `lo` up to `hi`. -/
structure AgreeOn (lo hi : Nat) (m : Machine) (groups : Fs.CgroupTable) (task : Nat) (t : Task) : Prop where
  mapped : ∀ n, lo ≤ n → n < hi →
    ((m.virtToPhysRaw t.cr3 (4096 * n)).isSome ↔ ∃ r ∈ t.vma.live, r.contains (4096 * n) = true)
  rights : ∀ n, lo ≤ n → n < hi → ∀ r ∈ t.vma.live, r.contains (4096 * n) = true →
    ∀ perms, m.permissions t.cr3 (4096 * n) = some perms →
      perms.writable = (r.prot &&& PROT_WRITE != 0) ∧ perms.noExecute = (r.prot &&& PROT_EXEC == 0)
  charge : groups.chargeOf task =
    4096 * ((Finset.Ico lo hi).filter fun n => (m.virtToPhysRaw t.cr3 (4096 * n)).isSome).card

/-- They do for the task that the processor runs. -/
def Agrees (cpu lo hi : Nat) (k : Memory) : Prop :=
  ∀ t, k.sched.getTask (k.sched.currentTaskId cpu) = some t →
    AgreeOn lo hi k.machine k.sched.cgroups (k.sched.currentTaskId cpu) t

/-! ## The areas -/

section Areas

variable {vma vma' : VmaTable} {r : VmaRegion} {n lo hi a b start stop prot flags slot : Nat}

theorem rightsAt_of_mem (inv : vma.Inv) (mem : r ∈ vma.live) (here : r.contains (4096 * n) = true) :
    rightsAt vma n = some (rightsOf r.prot) := by
  unfold rightsAt
  cases found : vma.live.find? (·.contains (4096 * n)) with
  | none => exact absurd here (find?_eq_none.mp found r mem)
  | some r' =>
    rw [inv.unique mem (mem_of_find?_eq_some found) here (by simpa using find?_some found)]
    rfl

theorem rightsAt_eq_none : rightsAt vma n = none ↔ ∀ r ∈ vma.live, ¬ r.contains (4096 * n) = true := by
  rw [rightsAt, map_eq_none_iff, find?_eq_none]

theorem exists_of_rightsAt {w : Bool × Bool} (rights : rightsAt vma n = some w) :
    ∃ r ∈ vma.live, r.contains (4096 * n) = true ∧ rightsOf r.prot = w := by
  obtain ⟨r, found, same⟩ := map_eq_some_iff.mp rights
  exact ⟨r, mem_of_find?_eq_some found, by simpa using find?_some found, same⟩

theorem rightsAt_insert (inv : vma.Inv)
    (inserted : vma.insert (4096 * a) (4096 * b) prot flags = (some slot, vma')) (n : Nat) :
    rightsAt vma' n = if a ≤ n ∧ n < b then some (rightsOf prot) else rightsAt vma n := by
  obtain ⟨-, -, free, -, -, live⟩ := live_insert_some inserted
  have inv' : vma'.Inv := by
    have := inv_insert inv (4096 * a) (4096 * b) prot flags
    rwa [inserted] at this
  split_ifs with inside
  · refine rightsAt_of_mem inv'
      (live ▸ mem_concat_self) ?_
    rw [contains_iff]
    exact ⟨rfl, by dsimp only; omega, by dsimp only; omega⟩
  · have miss : (⟨4096 * a, 4096 * b, prot, flags, 0, 0, true⟩ : VmaRegion).contains (4096 * n) = false := by
      simp only [VmaRegion.contains, Bool.true_and]
      simp only [Bool.and_eq_false_iff, decide_eq_false_iff_not]
      omega
    rw [rightsAt, rightsAt, live, find?_append, find?_singleton, miss]
    simp

theorem inside_insert (inside : Inside lo hi vma) (low : lo ≤ a) (high : b ≤ hi)
    (inserted : vma.insert (4096 * a) (4096 * b) prot flags = (some slot, vma')) : Inside lo hi vma' := by
  obtain ⟨-, -, -, -, -, live⟩ := live_insert_some inserted
  rw [Inside, live]
  refine forall_mem_append.mpr ⟨inside, forall_mem_singleton.mpr ?_⟩
  exact fun _ _ => ⟨a, b, low, high, rfl, rfl⟩

def Covers (start stop : Nat) (vma : VmaTable) : Prop :=
  ∀ r ∈ vma.live, r.overlaps start stop = true → start ≤ r.start ∧ r.endAddr ≤ stop

theorem overlaps_of_contains (mem : r.contains (4096 * n) = true) (low : a ≤ n) (high : n < b) :
    r.overlaps (4096 * a) (4096 * b) = true := by
  obtain ⟨valid, first, last⟩ := contains_iff.mp mem
  rw [overlaps_iff valid]
  omega

theorem exists_outside (inv : vma.Inv) (inside : Inside lo hi vma) (low : lo ≤ a) (high : b ≤ hi)
    (mem : r ∈ vma.live) (meets : r.overlaps (4096 * a) (4096 * b) = true)
    (out : ¬ (4096 * a ≤ r.start ∧ r.endAddr ≤ 4096 * b)) :
    ∃ n, lo ≤ n ∧ n < hi ∧ r.contains (4096 * n) = true ∧ ¬ (a ≤ n ∧ n < b) := by
  have valid := inv.valid r mem
  obtain ⟨first, last⟩ := (overlaps_iff valid).mp meets
  obtain ⟨c, d, low', high', start, stop⟩ := inside r mem (by omega) (by omega)
  by_cases before : c < a
  · refine ⟨c, low', by omega, contains_iff.mpr ⟨valid, by omega, by omega⟩, by omega⟩
  · refine ⟨d - 1, by omega, by omega, contains_iff.mpr ⟨valid, by omega, by omega⟩, by omega⟩

theorem inv_removeOverlapping (inv : vma.Inv) (start stop : Nat) :
    (vma.removeOverlapping start stop).2.Inv :=
  inv_removeOverlappingLoop start stop _ 0 inv

theorem mem_removeOverlapping (inv : vma.Inv) :
    r ∈ (vma.removeOverlapping start stop).2.live ↔ r ∈ vma.live ∧ r.overlaps start stop = false := by
  rw [(inv.removeOverlapping_spec start stop).1, mem_filter, not_eq_true']

theorem inside_removeOverlapping (inv : vma.Inv) (inside : Inside lo hi vma) :
    Inside lo hi (vma.removeOverlapping start stop).2 :=
  fun r mem => inside r ((mem_removeOverlapping inv).mp mem).1

theorem rightsAt_removeOverlapping_iff (inv : vma.Inv) (inside : Inside lo hi vma) (low : lo ≤ a)
    (high : b ≤ hi) :
    (∀ n, lo ≤ n → n < hi → rightsAt (vma.removeOverlapping (4096 * a) (4096 * b)).2 n =
      if a ≤ n ∧ n < b then none else rightsAt vma n) ↔ Covers (4096 * a) (4096 * b) vma := by
  have inv' := inv_removeOverlapping inv (4096 * a) (4096 * b)
  constructor
  · intro same r mem meets
    by_contra out
    obtain ⟨n, low', high', here, outside⟩ := exists_outside inv inside low high mem meets out
    have rights := same n low' high'
    rw [if_neg outside, rightsAt_of_mem inv mem here] at rights
    obtain ⟨r', mem', here', -⟩ := exists_of_rightsAt rights
    obtain ⟨old, misses⟩ := (mem_removeOverlapping inv).mp mem'
    rw [inv.unique mem old here here', misses] at meets
    cases meets
  · intro covers n low' high'
    split_ifs with within
    · refine rightsAt_eq_none.mpr fun r mem here => ?_
      obtain ⟨-, misses⟩ := (mem_removeOverlapping inv).mp mem
      rw [overlaps_of_contains here within.1 within.2] at misses
      cases misses
    · cases old : rightsAt vma n with
      | none =>
        exact rightsAt_eq_none.mpr fun r mem =>
          rightsAt_eq_none.mp old r ((mem_removeOverlapping inv).mp mem).1
      | some w =>
        obtain ⟨r, mem, here, rfl⟩ := exists_of_rightsAt old
        refine rightsAt_of_mem inv' ((mem_removeOverlapping inv).mpr ⟨mem, ?_⟩) here
        rw [eq_false_iff]
        intro meets
        obtain ⟨first, last⟩ := covers r mem meets
        obtain ⟨-, above, below⟩ := contains_iff.mp here
        omega

theorem inside_setProt (start stop prot : Nat) (inside : Inside lo hi vma) :
    Inside lo hi (vma.setProt start stop prot) := by
  intro r mem
  rw [live_setProt] at mem
  obtain ⟨old, was, rfl⟩ := mem_map.mp mem
  split_ifs
  · exact inside old was
  · exact inside old was

theorem rightsAt_setProt (start stop prot : Nat) (inv : vma.Inv) (mem : r ∈ vma.live)
    (here : r.contains (4096 * n) = true) :
    rightsAt (vma.setProt start stop prot) n =
      some (if r.overlaps start stop then rightsOf prot else rightsOf r.prot) := by
  have mem' : (if r.overlaps start stop then { r with prot := prot } else r) ∈
      (vma.setProt start stop prot).live := by
    rw [live_setProt]
    exact mem_map_of_mem mem
  rw [rightsAt_of_mem (inv_setProt inv start stop prot) mem' (by split_ifs <;> exact here)]
  split_ifs <;> rfl

theorem rightsAt_setProt_none : rightsAt (vma.setProt start stop prot) n = none ↔ rightsAt vma n = none := by
  rw [rightsAt_eq_none, rightsAt_eq_none, live_setProt]
  simp only [List.forall_mem_map]
  refine forall₂_congr fun r _ => ?_
  split_ifs <;> exact Iff.rfl

/-- The areas that stick out of the range have the new rights already. -/
def CoversRights (start stop prot : Nat) (vma : VmaTable) : Prop :=
  ∀ r ∈ vma.live, r.overlaps start stop = true →
    (start ≤ r.start ∧ r.endAddr ≤ stop) ∨ rightsOf r.prot = rightsOf prot

theorem rightsAt_setProt_iff (prot : Nat) (inv : vma.Inv) (inside : Inside lo hi vma) (low : lo ≤ a) (high : b ≤ hi) :
    (∀ n, lo ≤ n → n < hi → rightsAt (vma.setProt (4096 * a) (4096 * b) prot) n =
      if a ≤ n ∧ n < b then (rightsAt vma n).map fun _ => rightsOf prot else rightsAt vma n) ↔
      CoversRights (4096 * a) (4096 * b) prot vma := by
  constructor
  · intro same r mem meets
    refine or_iff_not_imp_left.mpr fun out => ?_
    obtain ⟨n, low', high', here, outside⟩ := exists_outside inv inside low high mem meets out
    have rights := same n low' high'
    rw [if_neg outside, rightsAt_of_mem inv mem here, rightsAt_setProt _ _ _ inv mem here, if_pos meets] at rights
    exact (some.inj rights).symm
  · intro covers n low' high'
    cases old : rightsAt vma n with
    | none =>
      rw [rightsAt_setProt_none.mpr old]
      split_ifs <;> rfl
    | some w =>
      obtain ⟨r, mem, here, rfl⟩ := exists_of_rightsAt old
      rw [rightsAt_setProt _ _ _ inv mem here, map_some]
      split_ifs with meets within within
      · rfl
      · obtain ⟨-, above, below⟩ := contains_iff.mp here
        rcases covers r mem meets with ⟨first, last⟩ | same
        · omega
        · rw [same]
      · exact absurd (overlaps_of_contains here within.1 within.2) meets
      · rfl

end Areas

/-! ## The pages -/

section PageLoops

variable {m : Machine} {rights rights' : Nat → Option (Bool × Bool)} {groups : Fs.CgroupTable} {t : Task}
  {lo hi task cr3 n c a prot count done : Nat} {p p' : Pages} {mapper : Mapper}

/-- The records agree if the areas give each page the rights that it has, and the account
    is that of the pages. -/
theorem agreeOn_iff (area : AreaMap m (pageBase t.cr3) lo hi rights) (room : 4096 * hi ≤ 2 ^ 47)
    (inv : t.vma.Inv) (charged : groups.chargeOf task = c) :
    AgreeOn lo hi m groups task t ↔
      (∀ n, lo ≤ n → n < hi → rightsAt t.vma n = rights n) ∧ c = 4096 * pagesIn lo hi rights := by
  have mapped : ∀ n, lo ≤ n → n < hi →
      ((m.virtToPhysRaw t.cr3 (4096 * n)).isSome ↔ (rights n).isSome = true) := by
    intro n low high
    rw [area.virtToPhysRaw room low high]
    cases rights n <;> simp
  have count : ((Finset.Ico lo hi).filter fun n => (m.virtToPhysRaw t.cr3 (4096 * n)).isSome).card =
      pagesIn lo hi rights := by
    refine congrArg card (filter_congr fun n inside => ?_)
    obtain ⟨low, high⟩ := mem_Ico.mp inside
    exact mapped n low high
  have rightsOf_iff : ∀ prot (w x : Bool), rightsOf prot = (w, x) ↔
      w = (prot &&& PROT_WRITE != 0) ∧ (!x) = (prot &&& PROT_EXEC == 0) := by
    intro prot w x
    rw [rightsOf, Prod.mk.injEq, bne, bne]
    cases w <;> cases x <;> simp
  constructor
  · intro agree
    refine ⟨fun n low high => ?_, by rw [← charged, agree.charge, count]⟩
    have some := (mapped n low high).symm.trans (agree.mapped n low high)
    cases here : rights n with
    | none =>
      rw [here] at some
      exact rightsAt_eq_none.mpr fun r mem covers => by simpa using some.mpr ⟨r, mem, covers⟩
    | some w =>
      rw [here] at some
      obtain ⟨r, mem, covers⟩ := some.mp rfl
      obtain ⟨perms, found, writes, executes⟩ := (area.shown n w.1 w.2 low high here).permissions
        area.tree area.executes (by omega)
      obtain ⟨writes', executes'⟩ := agree.rights n low high r mem covers perms found
      rw [rightsAt_of_mem inv mem covers]
      exact congrArg Option.some ((rightsOf_iff r.prot w.1 w.2).mpr
        ⟨writes.symm.trans writes', executes.symm.trans executes'⟩)
  · rintro ⟨same, rfl⟩
    refine ⟨fun n low high => ?_, fun n low high r mem covers perms found => ?_, by rw [charged, count]⟩
    · rw [mapped n low high, ← same n low high]
      constructor
      · intro some
        obtain ⟨w, here⟩ := isSome_iff_exists.mp some
        obtain ⟨r, mem, covers, -⟩ := exists_of_rightsAt here
        exact ⟨r, mem, covers⟩
      · rintro ⟨r, mem, covers⟩
        rw [rightsAt_of_mem inv mem covers]
        rfl
    · have here := (same n low high).symm.trans (rightsAt_of_mem inv mem covers)
      obtain ⟨perms', found', writes, executes⟩ := (area.shown n _ _ low high here).permissions
        area.tree area.executes (by omega)
      cases found.symm.trans found'
      obtain ⟨writes', executes'⟩ := (rightsOf_iff r.prot _ _).mp rfl
      exact ⟨writes.trans writes', executes.trans executes'⟩

/-! ### `munmap` -/

section

variable (area : AreaMap p.machine (pageBase cr3) lo hi rights) (room : 4096 * hi ≤ 2 ^ 47)

include area room

theorem munmapPage_spec (account : Account p.groups task (4096 * pagesIn lo hi rights)) (low : lo ≤ n) (high : n < hi) :
    ∃ p', p.munmapPage task cr3 (4096 * n) = some p' ∧
      AreaMap p'.machine (pageBase cr3) lo hi (update rights n none) ∧
      Account p'.groups task (4096 * pagesIn lo hi (update rights n none)) := by
  unfold Pages.munmapPage
  rw [area.virtToPhysRaw room low high]
  by_cases mapped : rights n = none
  · rw [if_pos mapped]
    refine ⟨p, rfl, ?_⟩
    rw [← mapped, update_eq_self]
    exact ⟨area, account⟩
  · rw [if_neg mapped]
    obtain ⟨table, slot, area'⟩ := area.unmapped room low high mapped
    have frame : IsFrame (frameAddr (pageWord p.machine (pageBase cr3) n)) := isFrame_frameAddr _
    dsimp only
    rw [frame.pageBase, freePhys_frame frame]
    refine ⟨_, rfl, ?_, ?_⟩
    · simpa only [unmapPageRawKeepFrame, slot] using area'
    · have fewer := pagesIn_erase low high mapped
      have less := account.uncharge 0x1000
      rwa [show 4096 * pagesIn lo hi rights - 0x1000 =
        4096 * pagesIn lo hi (update rights n none) by omega] at less

theorem munmapPages_spec (account : Account p.groups task (4096 * pagesIn lo hi rights)) (low : lo ≤ a)
    (high : a + count ≤ hi) :
    ∃ p' rights', (List.range count).foldlM
        (fun p i => p.munmapPage task cr3 (4096 * a + i * 0x1000)) p = some p' ∧
      (∀ n, rights' n = if a ≤ n ∧ n < a + count then none else rights n) ∧
      AreaMap p'.machine (pageBase cr3) lo hi rights' ∧
      Account p'.groups task (4096 * pagesIn lo hi rights') := by
  induction count with
  | zero => exact ⟨p, rights, rfl, fun n => (if_neg (by omega)).symm, area, account⟩
  | succ count ih =>
    obtain ⟨p₁, rights₁, run, described, area₁, account₁⟩ := ih (by omega)
    obtain ⟨p', last, area', account'⟩ := munmapPage_spec (n := a + count) area₁ room account₁ (by omega)
      (by omega)
    refine ⟨p', _, ?_, fun n => ?_, area', account'⟩
    · rw [range_succ, foldlM_append, run]
      simpa [show 4096 * a + count * 4096 = 4096 * (a + count) by omega] using last
    · by_cases here : n = a + count
      · rw [here, update_self, if_pos (by omega)]
      · rw [update_of_ne here, described]
        simp only [show n < a + (count + 1) ↔ n < a + count by omega]

/-! ### `mmap` -/

theorem mmapPage_spec
    (account : Account p.groups task c) (small : c + 0x1000 < WORD) (low : lo ≤ n) (high : n < hi)
    (vacant : rights n = none) (run : p.mmapPage mapper task cr3 (4096 * n) prot = some (true, p')) :
    ∃ ok : Bool, AreaMap p'.machine (pageBase cr3) lo hi
        (if ok then update rights n (some (rightsOf prot)) else rights) ∧
      Account p'.groups task (c + 0x1000) ∧ p'.lost = if ok then p.lost else 4096 * n :: p.lost := by
  unfold Pages.mmapPage at run
  split at run
  · cases run
  · next groups charged =>
    split at run
    · cases run
    · cases run
    · next frame m₁ taken =>
      obtain ⟨⟨ok, m₂⟩, mapped, same⟩ := map_eq_some_iff.mp run
      cases same
      have got := allocFrame_some area.tree.wf taken
      have area₁ := area.allocated got
      refine ⟨ok, ?_, account.charge small charged, rfl⟩
      rcases mapUserPageRaw_cases mapped with ⟨rfl, rfl⟩ | ⟨flags, ⟨good, -, writes, executes⟩, -, walk⟩
      · exact area₁
      · rw [got.frame.pageBase] at walk
        refine area₁.mapped room low high vacant got.frame (fun free => (got.sub free).2 rfl) ?_ ?_ good
          writes executes walk
        · rintro ⟨d, deep, v, inside, table⟩
          rw [got.store] at table
          exact area.tree.used deep inside table got.mem
        · intro k low' high' mapped' same
          rw [pageWord, got.store] at same
          exact (area.own k low' high' mapped').1 (same ▸ got.mem)

theorem mmapPages_spec (account : Account p.groups task c) (low : lo ≤ a) (high : a + count ≤ hi)
    (small : c + 4096 * count < WORD) (vacant : ∀ n, a ≤ n → n < a + count → rights n = none)
    (run : p.mmapPages mapper task cr3 (4096 * a) prot count = some (true, done, p')) :
    ∃ rights', AreaMap p'.machine (pageBase cr3) lo hi rights' ∧
      (∀ n, ¬ (a ≤ n ∧ n < a + count) → rights' n = rights n) ∧
      Account p'.groups task (c + 4096 * count) ∧
      (p'.lost = p.lost ↔ ∀ n, a ≤ n → n < a + count → rights' n = some (rightsOf prot)) := by
  suffices loop : ∃ rights', AreaMap p'.machine (pageBase cr3) lo hi rights' ∧
      (∀ n, ¬ (a ≤ n ∧ n < a + count) → rights' n = rights n) ∧
      Account p'.groups task (c + 4096 * count) ∧ p.lost <:+ p'.lost ∧
      (p'.lost = p.lost ↔ ∀ n, a ≤ n → n < a + count → rights' n = some (rightsOf prot)) by
    obtain ⟨rights', area', outside, account', -, whole⟩ := loop
    exact ⟨rights', area', outside, account', whole⟩
  refine (Lib.Loop.upTo_outcome (Q := fun _ => True)
    (P := fun i (s : Nat × Pages) => ∃ rights', AreaMap s.2.machine (pageBase cr3) lo hi rights' ∧
      (∀ n, ¬ (a ≤ n ∧ n < a + i) → rights' n = rights n) ∧
      Account s.2.groups task (c + 4096 * i) ∧ p.lost <:+ s.2.lost ∧
      (s.2.lost = p.lost ↔ ∀ n, a ≤ n → n < a + i → rights' n = some (rightsOf prot)))
    (fun i inside s s' ok before round => ?_) ?_ run).1 rfl
  · refine ⟨fun more => ?_, fun _ => trivial⟩
    subst more
    obtain ⟨rights₁, area₁, outside₁, account₁, suffix₁, whole₁⟩ := before
    obtain ⟨⟨ok, p₂⟩, once, same⟩ := map_eq_some_iff.mp round
    cases same
    have user : wadd (4096 * a) (i * 0x1000) = 4096 * (a + i) := by
      rw [wadd_of_lt (by rw [WORD_eq]; omega)]
      omega
    rw [user] at once
    obtain ⟨ok, area₂, account₂, lost₂⟩ := mmapPage_spec (n := a + i) area₁ room account₁ (by omega)
      (by omega) (by omega) ((outside₁ _ (by omega)).trans (vacant _ (by omega) (by omega))) once
    refine ⟨_, area₂, fun n out => ?_, by rwa [show c + 4096 * i + 0x1000 = c + 4096 * (i + 1) by omega] at account₂,
      ?_, ?_⟩
    · have elsewhere := outside₁ n (by omega)
      cases ok with
      | false => exact elsewhere
      | true =>
        rw [if_pos rfl, update_of_ne (by omega)]
        exact elsewhere
    · rw [lost₂]
      cases ok with
      | false => exact suffix₁.trans (suffix_cons _ _)
      | true => exact suffix₁
    · rw [lost₂]
      cases ok with
      | false =>
        refine iff_of_false (fun same => ?_) fun all => ?_
        · have longer := suffix₁.length_le
          have shorter := congrArg List.length same
          simp only [false_eq_true, if_false, length_cons] at shorter
          omega
        · have here := all (a + i) (by omega) (by omega)
          simp only [false_eq_true, if_false] at here
          rw [outside₁ _ (by omega), vacant _ (by omega) (by omega)] at here
          cases here
      | true =>
        simp only [if_true]
        rw [whole₁]
        constructor
        · intro all n above below
          by_cases here : n = a + i
          · rw [here, update_self]
          · rw [update_of_ne here]
            exact all n above (by omega)
        · intro all n above below
          have here := all n above (by omega)
          rwa [update_of_ne (by omega)] at here
  · exact ⟨rights, area, fun _ _ => rfl, account, suffix_rfl, iff_of_true rfl (by intro n above below; omega)⟩

end

theorem pagesIn_grown {value : Bool × Bool} (low : lo ≤ a)
    (high : a + count ≤ hi) (vacant : ∀ n, a ≤ n → n < a + count → rights n = none)
    (outside : ∀ n, ¬ (a ≤ n ∧ n < a + count) → rights' n = rights n)
    (whole : ∀ n, a ≤ n → n < a + count → rights' n = some value) :
    pagesIn lo hi rights' = pagesIn lo hi rights + count := by
  induction count generalizing rights' with
  | zero => exact pagesIn_congr fun n _ _ => congrArg Option.isSome (outside n (by omega))
  | succ count ih =>
    have before : pagesIn lo hi (update rights' (a + count) none) = pagesIn lo hi rights + count :=
      ih (by omega) (fun n above below => vacant n above (by omega)) (fun n out => ?_)
        (fun n above below => ?_)
    · have last : pagesIn lo hi (update rights' (a + count) none) + 1 = pagesIn lo hi rights' :=
        pagesIn_erase (by omega) (by omega)
          (by rw [whole (a + count) (by omega) (by omega)]; exact some_ne_none _)
      omega
    · by_cases here : n = a + count
      · rw [here, update_self, vacant _ (by omega) (by omega)]
      · rw [update_of_ne here]
        exact outside n (by omega)
    · rw [update_of_ne (by omega)]
      exact whole n above (by omega)

end PageLoops

end Zenus.Sys
