import Zenus.Mem.AreaMap
import Zenus.Mem.Spaces

/-! # Runs of page table edits

The calls that map, unmap and protect single pages refine a map from page numbers to
frames: each changes the translation of its own page only.  For unmapping and protecting
this needs no more than a tree of 4 KiB pages, and it covers both halves of the space.
-/

namespace Zenus.Mem.Machine

open Lib.Run Lib.Word Function Spaces

inductive PageEdit where
  | map (virt phys : Nat) (writable executable : Bool)
  | unmap (virt : Nat)
  | protect (virt : Nat) (writable executable : Bool)

def PageEdit.virt : PageEdit → Nat
  | .map virt .. | .unmap virt | .protect virt .. => virt

/-- The machine, and the frames by the numbers of their pages. -/
structure PageRun where
  machine : Machine
  table : Nat → Option Nat

def PageRun.step (mapper : Mapper) (cr3 : Nat) (s : PageRun) : PageEdit → Option PageRun
  | .map virt phys w x => (mapUserPageRaw mapper s.machine cr3 virt phys w x).map fun done =>
      ⟨done.2, if done.1 then update s.table (virt / 4096) (some (pageBase phys)) else s.table⟩
  | .unmap virt => some ⟨(s.machine.unmapPageRawKeepFrame cr3 virt).2, update s.table (virt / 4096) none⟩
  | .protect virt w x => some ⟨(s.machine.protectPageRaw cr3 virt w x).2, s.table⟩

/-- The frame of a last-level word. -/
def target (word : Nat) : Option Nat := if word = 0 then none else some (frameAddr word)

structure Refined (r : Nat) (s : PageRun) : Prop where
  tree : Tree s.machine r
  frames : ∀ v < 2 ^ 47, s.table (v / 4096) = target (wordAt s.machine.mem r v 3)

variable {mapper : Mapper} {m m' : Machine} {table : Nat → Option Nat} {r cr3 virt w : Nat}

theorem Refined.set (refined : Refined r ⟨m, table⟩) (tree : Tree m' r) (words : ∀ v < 2 ^ 47,
      wordAt m'.mem r v 3 = if v / 4096 = virt / 4096 then w else wordAt m.mem r v 3) :
    Refined r ⟨m', update table (virt / 4096) (target w)⟩ := by
  refine ⟨tree, fun v user => ?_⟩
  simp only [words v user, update_apply]
  split_ifs
  · rfl
  · exact refined.frames v user

theorem target_of_present {e : Nat} (present : e &&& PRESENT ≠ 0) : target e = some (frameAddr e) :=
  if_neg fun zero => present (by rw [zero, Nat.zero_and])

theorem Refined.step (s : PageRun) (e : PageEdit) (s' : PageRun) (refined : Refined (pageBase cr3) s)
    (user : e.virt < 2 ^ 47) (made : s.step mapper cr3 e = some s') : Refined (pageBase cr3) s' := by
  obtain ⟨m, table⟩ := s
  cases e with
  | map virt phys w x =>
    obtain ⟨⟨ok, m'⟩, run, rfl⟩ := Option.map_eq_some_iff.mp made
    rcases mapUserPageRaw_cases run with ⟨rfl, rfl⟩ | ⟨flags, ⟨good, -⟩, frame, walk⟩
    · exact refined
    · have effect := refined.tree.mapped walk good user
      cases ok with
      | false => exact ⟨effect.tree, fun v low => by simpa [effect.pages v low] using refined.frames v low⟩
      | true =>
        have here := present_page (pageBase phys) good
        have found : target (pageBase phys ||| flags) = some (pageBase phys) := by
          rw [target_of_present here, ← tableOf_some here]
          exact tableOf_page frame good
        exact found ▸ refined.set effect.tree (by simpa using effect.pages)
  | unmap virt =>
    cases made
    change virt < 2 ^ 47 at user
    unfold unmapPageRawKeepFrame
    obtain ⟨zero, slot⟩ | ⟨t, -, found, slot⟩ := refined.tree.leafSlot user <;> simp only [slot]
    · have none : table (virt / 4096) = none := (refined.frames virt user).trans (if_pos zero)
      rwa [← none, update_eq_self]
    · obtain ⟨change, -, words⟩ := refined.tree.setPage user found (.inl rfl)
      exact refined.set change.tree words
  | protect virt w x =>
    cases made
    change virt < 2 ^ 47 at user
    unfold protectPageRaw
    obtain ⟨-, slot⟩ | ⟨t, used, found, slot⟩ := refined.tree.leafSlot user <;> simp only [slot]
    · exact refined
    · have before : wordAt m.mem (pageBase cr3) virt 3 &&& PRESENT ≠ 0 :=
        fun absent => used ((refined.tree.absent_iff le_rfl user).mp absent)
      have after := (protectWord_present w x _).symm ▸ before
      obtain ⟨change, -, words⟩ := refined.tree.setPage user found (.inr ⟨after, fun no => absurd no (lt_irrefl 0)⟩)
      have same : table (virt / 4096) = target (protectWord w x (wordAt m.mem (pageBase cr3) virt 3)) := by
        refine (refined.frames virt user).trans ?_
        rw [target_of_present before, target_of_present after, protectWord_frame]
      have kept := refined.set change.tree words
      rwa [← same, update_eq_self] at kept

/-- The walk translates the user addresses as the map says. -/
def Translates (cr3 : Nat) (s : PageRun) : Prop :=
  ∀ v < 2 ^ 47, s.machine.virtToPhysRaw cr3 v = (s.table (v / 4096)).map (· ||| (v &&& 0xFFF))

/-- Throughout any run of edits of user pages, every address is translated as the map says. -/
theorem page_edits_refine {edits : List PageEdit} {s : PageRun} (start : Refined (pageBase cr3) s)
    (user : ∀ e ∈ edits, e.virt < 2 ^ 47) : Always (PageRun.step mapper cr3) (Translates cr3) edits s := by
  refine (along_of_forall (fun _ e mem => user e mem) s).always (Refined (pageBase cr3)) Refined.step ?_ start
  intro s refined v low
  rw [refined.tree.virtToPhysRaw low, refined.frames v low, target]
  split_ifs <;> rfl

theorem page_edits_refine_boot : Always (PageRun.step offsetPageTable 0x6000) (Translates 0x6000)
    [.map 0x400000 0x5000 true false, .protect 0x400000 false true, .unmap 0x400000] ⟨bootMachine, fun _ => none⟩ := by
  have empty : ∀ i < 256, bootMachine.mem 0x6000 i = 0 := fun i low => if_neg fun both => by omega
  refine page_edits_refine ⟨?_, fun v low => ?_⟩ (by decide)
  · exact tree_of_empty wf_bootPlan (fun free => absurd (bootPlan_avail free) (by decide)) empty
  · exact (congrArg target (wordAt_empty empty low 3)).symm

/-! ## Edits of a tree of 4 KiB pages -/

/-- The tables that the walk to an address reads, each with its level. -/
def tablesOn (mem : Nat → Nat → Nat) (virt : Nat) : Nat → Nat → List (Nat × Nat)
  | 0, table => [(0, table)]
  | level + 1, table =>
    let entry := mem table (tableIndex (level + 1) virt)
    (level + 1, table) :: if entry &&& PRESENT = 0 then [] else tablesOn mem virt level (frameAddr entry)

/-- No table is on two ways of indices, and no word above the last level maps a page. -/
structure SmallTree (mem : Nat → Nat → Nat) (root : Nat) : Prop where
  once : ∀ {v v' l l' t}, (l, t) ∈ tablesOn mem v 3 root → (l', t) ∈ tablesOn mem v' 3 root →
    l = l' ∧ ∀ k ≤ 3, l < k → tableIndex k v = tableIndex k v'
  small : ∀ {v l t}, (l + 1, t) ∈ tablesOn mem v 3 root → mem t (tableIndex (l + 1) v) &&& HUGE_PAGE = 0

section

variable {mem mem' : Nat → Nat → Nat} {v l t i e root : Nat} {s : Nat × Nat}

theorem canonical_index (inside : v < WORD) (here : isCanonical v) (user : virt < 2 ^ 47)
    (same : ∀ k ≤ 3, tableIndex k v = tableIndex k virt) : v / 4096 = virt / 4096 := by
  have page := same 0 (by decide)
  have first := same 1 (by decide)
  have second := same 2 (by decide)
  have third := same 3 (by decide)
  simp only [tableIndex, Nat.shiftRight_eq_div_pow, Nat.and_two_pow_sub_one_eq_mod _ 9] at page first second third
  simp only [isCanonical, decide_eq_true_eq] at here
  unfold WORD at inside here
  omega

theorem tablesOn_head : (l, t) ∈ tablesOn mem v l t := by
  cases l <;> exact List.mem_cons_self

theorem tablesOn_below (present : mem t (tableIndex (l + 1) v) &&& PRESENT ≠ 0)
    (read : s ∈ tablesOn mem v l (frameAddr (mem t (tableIndex (l + 1) v)))) : s ∈ tablesOn mem v (l + 1) t := by
  rw [tablesOn, if_neg present]
  exact List.mem_cons_of_mem _ read

/-- The walk depends on the words it reads only. -/
theorem virtWalk_congr (same : ∀ s ∈ tablesOn mem v l t, mem' s.2 (tableIndex s.1 v) = mem s.2 (tableIndex s.1 v)) :
    virtWalk mem' v l t = virtWalk mem v l t := by
  induction l generalizing t with
  | zero => simp only [virtWalk, same (0, t) tablesOn_head]
  | succ l ih =>
    simp only [virtWalk, same (l + 1, t) tablesOn_head]
    by_cases present : mem t (tableIndex (l + 1) v) &&& PRESENT = 0
    · rw [if_pos present, if_pos present]
    · rw [ih fun s read => same s (tablesOn_below present read)]

/-- The word the edits find is the one of the last level, in a table the walk reads. -/
theorem leafSlot_reads (found : leafSlot mem v l t = some (root, i, e)) :
    (0, root) ∈ tablesOn mem v l t ∧ i = tableIndex 0 v ∧ e = mem root i ∧ e &&& PRESENT ≠ 0 := by
  induction l generalizing t with
  | zero =>
    simp only [leafSlot, Option.ite_none_left_eq_some, Option.some.injEq, Prod.mk.injEq] at found
    obtain ⟨present, rfl, rfl, rfl⟩ := found
    exact ⟨tablesOn_head, rfl, rfl, present⟩
  | succ l ih =>
    simp only [leafSlot, Option.ite_none_left_eq_some] at found
    obtain ⟨read, rest⟩ := ih found.2
    exact ⟨tablesOn_below found.1 read, rest⟩

/-- Above the last level the two walks go the same way where no word maps a page there. -/
theorem virtWalk_leaf (same : ∀ s ∈ tablesOn mem v l t, 0 < s.1 →
      mem' s.2 (tableIndex s.1 v) = mem s.2 (tableIndex s.1 v))
    (small : ∀ {k s}, (k + 1, s) ∈ tablesOn mem v l t → mem s (tableIndex (k + 1) v) &&& HUGE_PAGE = 0) :
    (leafSlot mem v l t = none → virtWalk mem v l t = none) ∧
    ∀ {table i e}, leafSlot mem v l t = some (table, i, e) →
      (leafSlot mem' v l t = if mem' table i &&& PRESENT = 0 then none else some (table, i, mem' table i)) ∧
      virtWalk mem' v l t = if mem' table i &&& PRESENT = 0 then none
        else some (frameAddr (mem' table i) ||| (v &&& 0xFFF)) := by
  induction l generalizing t with
  | zero =>
    simp only [leafSlot, virtWalk, Option.ite_none_left_eq_some, Option.some.injEq, Prod.mk.injEq]
    refine ⟨fun absent => ?_, ?_⟩
    · by_contra mapped
      simp_all
    · rintro table i e ⟨_, rfl, rfl, _⟩
      exact ⟨rfl, rfl⟩
  | succ l ih =>
    have up := same (l + 1, t) tablesOn_head (Nat.succ_pos l)
    simp only [leafSlot, virtWalk, up, small tablesOn_head, ne_eq, not_true_eq_false, if_false]
    by_cases present : mem t (tableIndex (l + 1) v) &&& PRESENT = 0
    · simp [present]
    · simp only [if_neg present]
      exact ih (fun s read => same s (tablesOn_below present read))
        fun read => small (tablesOn_below present read)

/-- A change of the word of a page: other pages do not notice, and the walks to the page end at
    the new word. -/
theorem SmallTree.edit (tree : SmallTree m.mem root) (user : virt < 2 ^ 47)
    (found : leafSlot m.mem virt 3 root = some (t, i, e)) (w : Nat) :
    (∀ v < WORD, isCanonical v → v / 4096 ≠ virt / 4096 →
      virtWalk (m.setWord t i w).mem v 3 root = virtWalk m.mem v 3 root) ∧
    (leafSlot (m.setWord t i w).mem virt 3 root = if w &&& PRESENT = 0 then none else some (t, i, w)) ∧
    virtWalk (m.setWord t i w).mem virt 3 root = if w &&& PRESENT = 0 then none
      else some (frameAddr w ||| (virt &&& 0xFFF)) := by
  obtain ⟨leaf, rfl, -⟩ := leafSlot_reads found
  have elsewhere : ∀ {v l t'}, (t' = t → tableIndex l v ≠ tableIndex 0 virt) →
      (m.setWord t (tableIndex 0 virt) w).mem t' (tableIndex l v) = m.mem t' (tableIndex l v) := by
    intro v l t' other
    by_cases here : t' = t
    · rw [here]
      exact setWord_index (other here)
    · rw [setWord_frame here]
  refine ⟨fun v inside canonical other => virtWalk_congr ?_, ?_⟩
  · rintro ⟨l, t'⟩ read
    -- the walk reads the table of the edit at its last level only, and there at another index
    refine elsewhere fun here index => ?_
    subst here
    obtain ⟨rfl, upper⟩ := tree.once read leaf
    refine other (canonical_index inside canonical user fun k deep => ?_)
    rcases Nat.eq_zero_or_pos k with rfl | above
    · exact index
    · exact upper k deep above
  · have above : ∀ s ∈ tablesOn m.mem virt 3 root, 0 < s.1 →
        (m.setWord t (tableIndex 0 virt) w).mem s.2 (tableIndex s.1 virt) = m.mem s.2 (tableIndex s.1 virt) := by
      rintro ⟨l, t'⟩ read above
      refine elsewhere fun here => ?_
      subst here
      exact absurd (tree.once read leaf).1 above.ne'
    have walk := (virtWalk_leaf above tree.small).2 found
    rwa [setWord_self] at walk

/-- An edit succeeds where its page is mapped, and no other page notices. -/
structure OnlyPage (m : Machine) (cr3 virt : Nat) (done : Bool × Machine) : Prop where
  mapped : done.1 = (m.virtToPhysRaw cr3 virt).isSome
  others : ∀ v < WORD, isCanonical v → v / 4096 ≠ virt / 4096 → done.2.virtToPhysRaw cr3 v = m.virtToPhysRaw cr3 v

/-- Unmapping and protecting one page of a tree of 4 KiB pages. -/
theorem edits_one_page (tree : SmallTree m.mem (pageBase cr3)) (user : virt < 2 ^ 47) :
    (OnlyPage m cr3 virt (m.unmapPageRawKeepFrame cr3 virt) ∧
      ((m.unmapPageRawKeepFrame cr3 virt).1 = true →
        (m.unmapPageRawKeepFrame cr3 virt).2.virtToPhysRaw cr3 virt = none)) ∧
    ∀ w x, OnlyPage m cr3 virt (m.protectPageRaw cr3 virt w x) ∧
      ((m.protectPageRaw cr3 virt w x).1 = true →
        (m.protectPageRaw cr3 virt w x).2.virtToPhysRaw cr3 virt = m.virtToPhysRaw cr3 virt ∧
        ∃ t i e, leafSlot (m.protectPageRaw cr3 virt w x).2.mem virt 3 (pageBase cr3) = some (t, i, e) ∧
          (e &&& WRITABLE != 0) = w ∧ (e &&& NO_EXECUTE == 0) = x) := by
  obtain ⟨absent, present⟩ := virtWalk_leaf (fun _ _ _ => rfl) (tree.small (v := virt))
  unfold unmapPageRawKeepFrame protectPageRaw
  cases found : leafSlot m.mem virt 3 (pageBase cr3) with
  | none =>
    have nothing : OnlyPage m cr3 virt (false, m) := ⟨(congrArg Option.isSome (absent found)).symm, fun _ _ _ _ => rfl⟩
    refine ⟨⟨nothing, fun no => ?_⟩, fun _ _ => ⟨nothing, fun no => ?_⟩⟩ <;> exact absurd no Bool.false_ne_true
  | some slot =>
    obtain ⟨t, i, e⟩ := slot
    obtain ⟨-, -, rfl, word⟩ := leafSlot_reads found
    have before : m.virtToPhysRaw cr3 virt = some (frameAddr (m.mem t i) ||| (virt &&& 0xFFF)) :=
      (present found).2.trans (if_neg word)
    have only : ∀ w, OnlyPage m cr3 virt (true, m.setWord t i w) := fun w =>
      ⟨(congrArg Option.isSome before).symm, (tree.edit user found w).1⟩
    refine ⟨⟨only 0, fun _ => (tree.edit user found 0).2.2.trans (if_pos rfl)⟩, fun w x => ⟨only _, fun _ => ?_⟩⟩
    obtain ⟨-, leaf, walk⟩ := tree.edit user found (protectWord w x (m.mem t i))
    have after : protectWord w x (m.mem t i) &&& PRESENT ≠ 0 := (protectWord_present w x _).symm ▸ word
    rw [if_neg after] at leaf walk
    refine ⟨walk.trans ?_, t, i, _, leaf, protectWord_writable .., protectWord_executable ..⟩
    rw [before, protectWord_frame]

end

/-- Two pages in a row, with one table of each level. -/
def twoPages : Machine :=
  { bootMachine with mem := fun t i =>
      if t = 0x1000 ∧ i = 0 then 0x2007 else if t = 0x2000 ∧ i = 0 then 0x3007
      else if t = 0x3000 ∧ i = 2 then 0x4007 else if t = 0x4000 ∧ i = 0 then 0x8007
      else if t = 0x4000 ∧ i = 1 then 0x9007 else 0 }

theorem twoPages_tree : SmallTree twoPages.mem 0x1000 := by
  have tables : ∀ {v l t}, (l, t) ∈ tablesOn twoPages.mem v 3 0x1000 →
      t = 0x1000 * (4 - l) ∧ l ≤ 3 ∧ ∀ k ≤ 3, l < k → tableIndex k v = if k = 1 then 2 else 0 := by
    intro v l t read
    have way : (l = 3 ∧ t = 0x1000) ∨ tableIndex 3 v = 0 ∧ ((l = 2 ∧ t = 0x2000) ∨ tableIndex 2 v = 0 ∧
        ((l = 1 ∧ t = 0x3000) ∨ tableIndex 1 v = 2 ∧ l = 0 ∧ t = 0x4000)) := by
      by_cases first : tableIndex 3 v = 0 <;> by_cases second : tableIndex 2 v = 0 <;>
        by_cases third : tableIndex 1 v = 2 <;>
        simpa [tablesOn, twoPages, first, second, third, frameAddr, PRESENT] using read
    grind
  refine ⟨fun here there => ?_, fun here => ?_⟩
  · obtain ⟨place, low, upper⟩ := tables here
    obtain ⟨place', low', upper'⟩ := tables there
    refine ⟨by omega, fun k deep above => (upper k deep above).trans (upper' k deep ?_).symm⟩
    omega
  · simp only [twoPages]
    split_ifs <;> rfl

theorem edits_one_page_twoPages : (twoPages.unmapPageRawKeepFrame 0x1000 0x400000).1 = true ∧
    (twoPages.unmapPageRawKeepFrame 0x1000 0x400000).2.virtToPhysRaw 0x1000 0x401000 = some 0x9000 ∧
    (twoPages.protectPageRaw 0x1000 0x400000 false true).2.virtToPhysRaw 0x1000 0x400000 = some 0x8000 := by
  have tree : SmallTree twoPages.mem (pageBase 0x1000) := twoPages_tree
  have user : 0x400000 < 2 ^ 47 := by decide
  obtain ⟨⟨unmapped, -⟩, changed⟩ := edits_one_page tree user
  obtain ⟨-, kept⟩ := changed false true
  exact ⟨unmapped.mapped, unmapped.others 0x401000 (by decide) rfl (by decide), (kept rfl).1⟩

end Zenus.Mem.Machine
