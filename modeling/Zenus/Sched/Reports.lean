import Zenus.Sched.Lifecycle
import Zenus.Sched.Numbers

/-! # Reports of exits

Which ends of tasks their parents learn of.  A ledger follows a run: the ends by exit
or by a fatal signal that no wait has returned yet, and the tasks whose end one has.
-/

namespace Zenus.Sched

open Scheduler Lib.Word Lib.Run Lib.Slots Function List Option ZombieList ZombieRecord

/-! ## The list of records -/

namespace ZombieList

variable {z : ZombieList} {test : ZombieRecord → Bool} {rec : ZombieRecord}

theorem findBy_none (none_found : (z.findBy test).1 = none) :
    (z.findBy test).2 = z ∧ ∀ rec ∈ z.records, test rec = false := by
  unfold findBy at none_found ⊢
  split at none_found
  · next missing => exact ⟨rfl, by simpa using findIdx?_eq_none_iff.mp missing⟩
  · next i found =>
    obtain ⟨bound, -⟩ := findIdx?_eq_some_iff_getElem.mp found
    simp [bound] at none_found

theorem findBy_some (found : (z.findBy test).1 = some rec) :
    test rec = true ∧ z.records.Perm (rec :: (z.findBy test).2.records) := by
  unfold findBy at found ⊢
  split at found
  · cases found
  · next i at_i =>
    obtain ⟨bound, passes, -⟩ := findIdx?_eq_some_iff_getElem.mp at_i
    cases (getElem?_eq_getElem bound).symm.trans found
    exact ⟨passes, perm_swapRemove found⟩

theorem push_records (room : z.records.length < MAX_ZOMBIES) : (z.push rec).2.records = z.records ++ [rec] := by
  unfold push
  rw [dif_pos room]

end ZombieList

/-! ## The ledger -/

/-- An event, or a wait of a program that then frees the slot of the child. -/
inductive Call where
  | event (e : Event)
  | waitReap (parentPid childPid : Nat)

def Call.waits : Call → Option (Nat × Nat)
  | .event (.wait parentPid childPid) => some (parentPid, childPid)
  | .waitReap parentPid childPid => some (parentPid, childPid)
  | _ => none

def Scheduler.ended (s : Scheduler) : Event → Option ZombieRecord
  | .exit cpu code =>
    ((s.tasks (s.current cpu)).filter (·.state != .terminated)).map fun t => ⟨t.id, t.parentPid, code⟩
  | .forceKill id =>
    ((s.getTask id).filter (·.state != .terminated)).map fun t => ⟨t.id, t.parentPid, 9 <<< 8⟩
  | _ => none

structure Ledger where
  sched : Scheduler
  /-- The ends that no wait has returned. -/
  owed : List ZombieRecord
  /-- The tasks whose end a wait has returned. -/
  reported : List Nat

namespace Ledger

def start (s : Scheduler) : Ledger := ⟨s, [], []⟩

def past (l : Ledger) : List Nat := l.owed.map ZombieRecord.childPid ++ l.reported

/-- A wait has returned, with a child or without. -/
def report (l : Ledger) (s : Scheduler) : Option (Nat × Nat) → Ledger
  | none => { l with sched := s }
  | some (id, _) => ⟨s, l.owed.filter (·.childPid != id), id :: l.reported⟩

def step (l : Ledger) : Call → Option Ledger
  | .waitReap parentPid childPid =>
    let answer := l.sched.waitForChild parentPid childPid
    some (l.report ((answer.1.map fun child => answer.2.reapTask child.1).getD answer.2) answer.1)
  | .event (.wait parentPid childPid) =>
    let answer := l.sched.waitForChild parentPid childPid
    some (l.report answer.2 answer.1)
  | .event e =>
    (l.sched.step e).map fun s => { l with sched := s, owed := l.owed ++ (l.sched.ended e).toList }

def Names (childPid : Nat) : Prop := childPid ≠ 0 ∧ childPid ≠ WORD - 1

instance (childPid : Nat) : Decidable (Names childPid) :=
  inferInstanceAs (Decidable (childPid ≠ 0 ∧ childPid ≠ WORD - 1))

/-- What a wait owes its caller: the end of the child it names, or of some child, if it is
    owed one; nothing that is not owed to the caller or was returned before; and the slot
    of the child is free afterwards. -/
def Reports (l : Ledger) (call : Call) : Prop :=
  ∀ parentPid childPid, call.waits = some (parentPid, childPid) → ∀ l', l.step call = some l' →
    (∀ rec ∈ l.owed, rec.parentPid = parentPid → Names childPid → rec.childPid = childPid →
      (l.sched.waitForChild parentPid childPid).1 = some (childPid, rec.exitCode)) ∧
    (∀ rec ∈ l.owed, rec.parentPid = parentPid → ¬ Names childPid →
      (l.sched.waitForChild parentPid childPid).1.isSome = true) ∧
    ∀ id code, (l.sched.waitForChild parentPid childPid).1 = some (id, code) →
      ⟨id, parentPid, code⟩ ∈ l.owed ∧ id ∉ l.reported ∧ (Names childPid → id = childPid) ∧
        ∀ i t, l'.sched.tasks i = some t → t.id ≠ id

/-- The records that a wait looks for. -/
def wanted (parentPid childPid : Nat) (rec : ZombieRecord) : Bool :=
  if childPid = WORD - 1 ∨ childPid = 0 then rec.parentPid == parentPid else rec.childPid == childPid

/-- The record that a wait naming a child finds is that of the caller's child. -/
def asksOwn (s : Scheduler) (parentPid childPid : Nat) : Bool :=
  childPid == 0 || childPid == WORD - 1 ||
    (s.zombies.records.find? (·.childPid == childPid)).all (·.parentPid == parentPid)

/-- The conditions under which reports are exact: tasks end by an exit that finds room for
    its record, and only once; waits that name a child come from its parent; and the slot
    of a child is freed with the report or was before. -/
def orderly (l : Ledger) : Call → Bool
  | .waitReap parentPid childPid => asksOwn l.sched parentPid childPid
  | .event (.wait parentPid childPid) =>
    asksOwn l.sched parentPid childPid &&
      (l.sched.zombies.records.find? (wanted parentPid childPid)).all fun rec => (l.sched.slotOf rec.childPid).isNone
  | .event (.exit cpu _) =>
    ((l.sched.tasks (l.sched.current cpu)).all (·.state != .terminated)) &&
      decide (l.sched.zombies.records.length < MAX_ZOMBIES)
  | .event (.forceKill id) => (l.sched.getTask id).all (·.state == .terminated)
  | .event (.kill cpu id) => (l.sched.freedBy (.kill cpu id)).isNone
  | .event (.setState id state) => state != .terminated && l.sched.sparesEnded (.setState id state)
  | .event e => l.sched.sparesEnded e && (!e.creates || decide (l.sched.nextTaskId + 1 < WORD))

/-- The records are the ends owed; a task ends once; its number is its own. -/
structure Exact (l : Ledger) : Prop where
  records : l.sched.zombies.records.Perm l.owed
  once : l.past.Nodup
  numbered : l.sched.Numbered
  pastBelow : ∀ id ∈ l.past, id < l.sched.nextTaskId
  ended : ∀ i t, l.sched.tasks i = some t → t.id ∈ l.past → t.state = .terminated

variable {l l' : Ledger} {s' : Scheduler} {e : Event} {rec rec' : ZombieRecord} {s : Scheduler}
variable {childPid parentPid id code cpu : Nat}

/-! ## Waits -/

theorem names_iff : Names childPid ↔ ¬ (childPid = WORD - 1 ∨ childPid = 0) := by
  rw [Names, not_or, and_comm]

theorem wanted_of_names (names : Names childPid) :
    wanted parentPid childPid rec = (rec.childPid == childPid) := if_neg (names_iff.mp names)

theorem wanted_of_any (any : ¬ Names childPid) :
    wanted parentPid childPid rec = (rec.parentPid == parentPid) :=
  if_pos (not_not.mp (names_iff.not.mp any))

theorem findBy_fst (z : ZombieList) (test : ZombieRecord → Bool) : (z.findBy test).1 = z.records.find? test := by
  rw [ZombieList.findBy, List.find?_eq_bind_findIdx?_getElem?]
  cases z.records.findIdx? test <;> rfl

theorem waitForChild_eq (s : Scheduler) (parentPid childPid : Nat) :
    s.waitForChild parentPid childPid =
      ((s.zombies.findBy (wanted parentPid childPid)).1.map fun rec => (rec.childPid, rec.exitCode),
        { s with zombies := (s.zombies.findBy (wanted parentPid childPid)).2 }) := by
  unfold waitForChild
  by_cases any : childPid = WORD - 1 ∨ childPid = 0
  · have same : wanted parentPid childPid = (·.parentPid == parentPid) := funext fun _ => if_pos any
    rw [if_pos any, same]
    rfl
  · have same : wanted parentPid childPid = (·.childPid == childPid) := funext fun _ => if_neg any
    rw [if_neg any, same]
    rfl

variable (tally : Exact l) {t : Task} {i : Slot} {call : Call}

include tally

theorem Exact.record_ext (mem : rec ∈ l.owed)
    (mem' : rec' ∈ l.owed) (same : rec.childPid = rec'.childPid) : rec = rec' :=
  inj_on_of_nodup_map (tally.once.sublist (sublist_append_left ..)) mem mem' same

theorem Exact.found_own (own : asksOwn l.sched parentPid childPid = true)
    (found : (l.sched.zombies.findBy (wanted parentPid childPid)).1 = some rec) :
    rec ∈ l.owed ∧ rec.parentPid = parentPid ∧ (Names childPid → rec.childPid = childPid) := by
  obtain ⟨passes, perm⟩ := findBy_some found
  have listed : rec ∈ l.sched.zombies.records := perm.mem_iff.mpr (.head _)
  have mem : rec ∈ l.owed := tally.records.mem_iff.mp listed
  by_cases names : Names childPid
  · rw [wanted_of_names names, beq_iff_eq] at passes
    refine ⟨mem, ?_, fun _ => passes⟩
    simp only [asksOwn, Bool.or_eq_true, beq_iff_eq, names.1, names.2, false_or] at own
    cases first : l.sched.zombies.records.find? (·.childPid == childPid) with
    | none => exact absurd (find?_eq_none.mp first rec listed) (by simpa using passes)
    | some rec' =>
      rw [first, all_some, beq_iff_eq] at own
      have number := find?_some first
      rw [beq_iff_eq] at number
      have mem' := tally.records.mem_iff.mp (mem_of_find?_eq_some first)
      rw [tally.record_ext mem mem' (passes.trans number.symm)]
      exact own
  · rw [wanted_of_any names, beq_iff_eq] at passes
    exact ⟨mem, passes, fun named => absurd named names⟩

theorem Exact.found_of_wanted (parentPid childPid : Nat) (mem : rec ∈ l.owed)
    (want : wanted parentPid childPid rec = true) :
    ∃ found, (l.sched.zombies.findBy (wanted parentPid childPid)).1 = some found := by
  cases found : (l.sched.zombies.findBy (wanted parentPid childPid)).1 with
  | some first => exact ⟨first, rfl⟩
  | none =>
    have missing := (findBy_none found).2 rec (tally.records.mem_iff.mpr mem)
    exact nomatch want.symm.trans missing

theorem Exact.report {left : ZombieList}
    (perm : l.sched.zombies.records.Perm (rec :: left.records)) (zombies : s'.zombies = left)
    (next : s'.nextTaskId = l.sched.nextTaskId)
    (tasks : ∀ i t, s'.tasks i = some t → l.sched.tasks i = some t) :
    Exact (l.report s' (some (rec.childPid, code))) := by
  have owed : l.owed.Perm (rec :: left.records) := tally.records.symm.trans perm
  have numbers := (owed.map childPid).nodup_iff.mp
    (tally.once.sublist (sublist_append_left ..))
  rw [map_cons, nodup_cons] at numbers
  have rest : (l.owed.filter (·.childPid != rec.childPid)).Perm left.records := by
    refine (owed.filter _).trans ?_
    rw [filter_cons_of_neg (by simp), filter_eq_self.mpr]
    intro other mem
    have apart : other.childPid ≠ rec.childPid := fun same =>
      numbers.1 (same ▸ mem_map_of_mem mem)
    simpa using apart
  have past : (l.report s' (some (rec.childPid, code))).past.Perm l.past := by
    refine perm_middle.trans ?_
    rw [← cons_append]
    refine List.Perm.append_right _ ?_
    exact ((rest.map childPid).cons _).trans (owed.map childPid).symm
  exact {
    records := by
      rw [Ledger.report, zombies]
      exact rest.symm
    once := past.nodup_iff.mpr tally.once
    numbered := {
      apart := fun i j t t' here there => tally.numbered.apart i j t t' (tasks i t here) (tasks j t' there)
      below := fun i t here => next.symm ▸ tally.numbered.below i t (tasks i t here) }
    pastBelow := fun id mem => next.symm ▸ tally.pastBelow id (past.mem_iff.mp mem)
    ended := fun i t here mem => tally.ended i t (tasks i t here) (past.mem_iff.mp mem) }

omit tally

theorem tasks_of_reapTask (after : (s.reapTask id).tasks i = some t) : s.tasks i = some t := by
  rw [reapTask_eq] at after
  split at after
  · exact after
  · next j _ =>
    rcases eq_or_ne i j with rfl | other
    · exact nomatch (update_self ..).symm.trans after
    · exact (update_of_ne other ..).symm.trans after

theorem Exact.reaped (tally : Exact l) (past : id ∈ l.past)
    (after : (l.sched.reapTask id).tasks i = some t) : t.id ≠ id := by
  rintro rfl
  have here := tasks_of_reapTask after
  have ended := tally.ended i t here past
  obtain ⟨j, found⟩ := firstSlot_isSome (i := i)
    (fun j => (l.sched.tasks j).any fun u => u.id == t.id && u.state == .terminated)
    (by simp [here, ended])
  obtain ⟨u, at_j, both⟩ := (Option.any_eq_true ..).mp (test_of_firstSlot found)
  cases tally.numbered.apart j i u t at_j here (eq_of_beq (Bool.and_eq_true_iff.mp both).1)
  rw [reapTask, found] at after
  exact nomatch (update_self ..).symm.trans after

theorem tasks_reapTask_zombies (s : Scheduler) (z : ZombieList) (id : Nat) :
    ({ s with zombies := z }.reapTask id).tasks = (s.reapTask id).tasks := by
  have same : freedBy { s with zombies := z } (.reap id) = s.freedBy (.reap id) := rfl
  rw [reapTask_eq, reapTask_eq, same]
  cases s.freedBy (.reap id) with
  | none | some => rfl

theorem reapTask_frame (s : Scheduler) (id : Nat) :
    (s.reapTask id).zombies = s.zombies ∧ (s.reapTask id).nextTaskId = s.nextTaskId := by
  rw [reapTask_eq]
  split <;> exact ⟨rfl, rfl⟩

include tally

theorem Exact.wait (parentPid childPid : Nat)
    (made : l.step (.event (.wait parentPid childPid)) = some l') : Exact l' := by
  dsimp only [step] at made
  rw [waitForChild_eq] at made
  cases made
  cases found : (l.sched.zombies.findBy (wanted parentPid childPid)).1 with
  | none =>
    rw [(findBy_none found).1]
    exact tally
  | some rec => exact tally.report (findBy_some found).2 rfl rfl fun _ _ => id

theorem Exact.waitReap (parentPid childPid : Nat)
    (made : l.step (.waitReap parentPid childPid) = some l') : Exact l' := by
  dsimp only [step] at made
  rw [waitForChild_eq] at made
  cases made
  cases found : (l.sched.zombies.findBy (wanted parentPid childPid)).1 with
  | none =>
    rw [(findBy_none found).1]
    exact tally
  | some rec =>
    obtain ⟨zombies, next⟩ := reapTask_frame
      { l.sched with zombies := (l.sched.zombies.findBy (wanted parentPid childPid)).2 } rec.childPid
    exact tally.report (findBy_some found).2 zombies next fun _ _ => tasks_of_reapTask

theorem Exact.asked (ok : l.orderly call = true)
    (waits : call.waits = some (parentPid, childPid)) (made : l.step call = some l') :
    asksOwn l.sched parentPid childPid = true ∧
      ∀ id code, (l.sched.waitForChild parentPid childPid).1 = some (id, code) → id ∈ l.past →
        ∀ i t, l'.sched.tasks i = some t → t.id ≠ id := by
  obtain ⟨e⟩ | ⟨p, c⟩ := call
  · cases e with
    | wait p c =>
      cases waits
      obtain ⟨own, gone⟩ := Bool.and_eq_true_iff.mp ok
      refine ⟨own, fun id code answer _ i t after same => ?_⟩
      obtain ⟨rec, found, pair⟩ := map_eq_some_iff.mp (congrArg Prod.fst (waitForChild_eq ..) ▸ answer)
      cases pair
      rw [← findBy_fst, found, all_some, isNone_iff_eq_none] at gone
      dsimp only [step] at made
      rw [answer] at made
      cases made
      have here : l.sched.tasks i = some t := after
      have missed := find?_eq_none.mp gone i (mem_finRange i)
      exact missed (by rw [here, any_some, same]; exact beq_self_eq_true _)
    | _ => exact nomatch waits
  · cases waits
    refine ⟨ok, fun id code answer past i t after => ?_⟩
    dsimp only [step] at made
    rw [answer] at made
    cases made
    refine tally.reaped past (i := i) ?_
    rw [← tasks_reapTask_zombies]
    exact after

theorem Exact.reports (ok : l.orderly call = true) : l.Reports call := by
  intro parentPid childPid waits l' made
  obtain ⟨own, freed⟩ := tally.asked ok waits made
  rw [waitForChild_eq] at freed ⊢
  refine ⟨fun rec mem parent names child => ?_, fun rec mem parent any => ?_, fun id code answer => ?_⟩
  · obtain ⟨first, found⟩ := tally.found_of_wanted parentPid childPid mem
      (by rw [wanted_of_names names, child]; exact beq_self_eq_true _)
    obtain ⟨mem', -, child'⟩ := tally.found_own own found
    rw [found, tally.record_ext mem mem' (child.trans (child' names).symm), ← child' names]
    rfl
  · obtain ⟨first, found⟩ := tally.found_of_wanted parentPid childPid mem
      (by rw [wanted_of_any any, parent]; exact beq_self_eq_true _)
    rw [found]
    rfl
  · obtain ⟨rec, found, pair⟩ := map_eq_some_iff.mp answer
    cases pair
    obtain ⟨mem, rfl, child⟩ := tally.found_own own found
    have ended := mem_map_of_mem (f := ZombieRecord.childPid) mem
    exact ⟨mem, disjoint_of_nodup_append tally.once ended, child, freed _ _ answer (mem_append_left _ ended)⟩

/-! ## Other events -/

theorem Exact.replace (zombies : s'.zombies = l.sched.zombies)
    (numbered : s'.Numbered) (next : l.sched.nextTaskId ≤ s'.nextTaskId)
    (origin : ∀ i t', s'.tasks i = some t' → t'.id ∈ l.past → ∃ t, l.sched.tasks i = some t ∧
      t'.id = t.id ∧ (t.state = .terminated → t'.state = .terminated)) : Exact { l with sched := s' } where
  records := zombies ▸ tally.records
  once := tally.once
  numbered := numbered
  pastBelow id mem := (tally.pastBelow id mem).trans_le next
  ended i t here mem := by
    obtain ⟨u, before, number, ends⟩ := origin i t here mem
    exact ends (tally.ended i u before (number ▸ mem))

omit tally

theorem origin_of_spares (made : l.sched.step e = some s') (noNew : ¬ e.creates)
    (spares : l.sched.sparesEnded e = true) (i : Slot) (t' : Task) (after : s'.tasks i = some t') :
    ∃ t, l.sched.tasks i = some t ∧ t'.id = t.id ∧ (t.state = .terminated → t'.state = .terminated) := by
  obtain ⟨t, before, kept, -⟩ := step_origin made noNew after
  refine ⟨t, before, kept.id, fun ended => ?_⟩
  have stays := (staysEnded_iff l.sched e).mpr spares
  exact (((stays i t before ended).2 s' made).1 t' after).2

theorem Exact.exit (tally : Exact l) (ok : l.orderly (.event (.exit cpu code)) = true)
    (made : l.step (.event (.exit cpu code)) = some l') : Exact l' := by
  cases made
  obtain ⟨alive, room⟩ := Bool.and_eq_true_iff.mp ok
  have room := of_decide_eq_true room
  cases ran : l.sched.tasks (l.sched.current cpu) with
  | none =>
    have same : l.sched.exitCurrent cpu code = l.sched := by rw [exitCurrent, ran]
    have noEnd : l.sched.ended (.exit cpu code) = none := by
      rw [Scheduler.ended, ran]
      rfl
    rw [same, noEnd, toList_none, append_nil]
    exact tally
  | some t =>
    rw [ran, all_some, bne_iff_ne] at alive
    have fresh : t.id ∉ l.past := fun mem => alive (tally.ended _ t ran mem)
    have noted : l.sched.ended (.exit cpu code) = some ⟨t.id, t.parentPid, code⟩ := by
      simp [Scheduler.ended, ran, alive]
    have origin : ∀ i u, (l.sched.exitCurrent cpu code).tasks i = some u →
        ∃ u₀, l.sched.tasks i = some u₀ ∧ u.id = u₀.id ∧
          u.state = if l.sched.current cpu = i then .terminated else u₀.state := by
      intro i u after
      obtain ⟨u₀, before, kept, state⟩ :=
        step_origin (e := .exit cpu code) rfl Bool.false_ne_true after
      exact ⟨u₀, before, kept.id, state⟩
    have past : ((l.owed ++ [ZombieRecord.mk t.id t.parentPid code]).map ZombieRecord.childPid ++
        l.reported).Perm (t.id :: l.past) := by
      rw [map_append, append_assoc]
      exact perm_middle
    have frame : (l.sched.exitCurrent cpu code).zombies.records =
          l.sched.zombies.records ++ [⟨t.id, t.parentPid, code⟩] ∧
        (l.sched.exitCurrent cpu code).nextTaskId = l.sched.nextTaskId := by
      rw [exitCurrent, ran]
      exact ⟨push_records room, rfl⟩
    rw [noted, toList_some]
    exact {
      records := frame.1 ▸ tally.records.append_right _
      once := past.nodup_iff.mpr (nodup_cons.mpr ⟨fresh, tally.once⟩)
      numbered := @Scheduler.Numbered.step _ _ (.exit cpu code) tally.numbered rfl (absurd · Bool.false_ne_true)
      pastBelow := by
        intro id mem
        rcases mem_cons.mp (past.mem_iff.mp mem) with rfl | old
        · exact frame.2.symm ▸ tally.numbered.below _ t ran
        · exact frame.2.symm ▸ tally.pastBelow id old
      ended := by
        intro i u here mem
        obtain ⟨v, before, number, state⟩ := origin i u here
        rw [state]
        rcases mem_cons.mp (past.mem_iff.mp mem) with same | old
        · rw [if_pos (tally.numbered.apart _ i t v ran before (same.symm.trans number))]
        · rw [tally.ended i v before (number ▸ old), ite_self] }

theorem Exact.other (tally : Exact l) (made : l.step (.event e) = some l')
    (steps : l.step (.event e) = (l.sched.step e).map fun s =>
      { l with sched := s, owed := l.owed ++ (l.sched.ended e).toList })
    (noEnd : l.sched.ended e = none) (spares : l.sched.sparesEnded e = true)
    (room : e.creates → l.sched.nextTaskId + 1 < WORD)
    (frame : ∀ s, l.sched.step e = some s → s.zombies = l.sched.zombies) : Exact l' := by
  rw [steps] at made
  obtain ⟨s, moved, rfl⟩ := map_eq_some_iff.mp made
  rw [noEnd, toList_none, append_nil]
  have numbered := tally.numbered.step moved room
  by_cases creates : e.creates
  · obtain rfl | ⟨next, j, tasks⟩ := create_numbers moved creates (room creates)
    · exact tally
    · refine tally.replace (frame s moved) numbered (next ▸ Nat.le_succ _) fun i t after mem => ?_
      obtain before | ⟨-, -, new⟩ := tasks i t after
      · exact ⟨t, before, rfl, id⟩
      · exact absurd (tally.pastBelow _ mem) (id_of_newTask new ▸ Nat.lt_irrefl _)
  · refine tally.replace (frame s moved) numbered
      (step_rest moved creates).nextTaskId.ge fun i t after _ => ?_
    exact origin_of_spares moved creates spares i t after

theorem zombies_create (made : l.sched.step e = some s') (creates : e.creates) :
    s'.zombies = l.sched.zombies := by
  obtain ⟨-, -, rfl | rfl⟩ | ⟨task, -, -, rfl⟩ := create_cases made creates
  · rfl
  · rfl
  · exact (enrol_frame ..).1

theorem Exact.event (tally : Exact l) (ok : l.orderly (.event e) = true)
    (made : l.step (.event e) = some l') : Exact l' := by
  have quiet : e.quiet → ∀ s, l.sched.step e = some s → s.zombies = l.sched.zombies := by
    intro quiet s moved
    obtain ⟨tasks, futexes, userRsp, cr3, rfl⟩ := quiet_frame moved quiet
    rfl
  cases e with
  | exit cpu code => exact tally.exit ok made
  | wait parentPid childPid => exact tally.wait parentPid childPid made
  | yieldNow | tick | deliver | clear =>
    exact tally.other made rfl rfl rfl (nomatch ·) (quiet rfl)
  | futexWait | futexWake =>
    exact tally.other made rfl rfl (Bool.and_eq_true_iff.mp ok).1 (nomatch ·) (quiet rfl)
  | setState => exact tally.other made rfl rfl (Bool.and_eq_true_iff.mp ok).2 (nomatch ·) (quiet rfl)
  | forceKill id =>
    refine tally.other made rfl ?_ rfl (nomatch ·) (quiet rfl)
    have gone : (l.sched.getTask id).all (·.state == .terminated) = true := ok
    cases found : l.sched.getTask id with
    | none => simp [Scheduler.ended, found]
    | some t => simp_all [Scheduler.ended]
  | kill cpu id =>
    refine tally.other made rfl rfl rfl (nomatch ·) fun s moved => ?_
    cases moved
    rw [killTask_eq, isNone_iff_eq_none.mp ok]
  | reap id =>
    refine tally.other made rfl rfl rfl (nomatch ·) fun s moved => ?_
    cases moved
    exact (reapTask_frame ..).1
  | writeGroup | removeGroup =>
    refine tally.other made rfl rfl rfl (nomatch ·) fun s moved => ?_
    cases moved
    rfl
  | makeGroup name =>
    refine tally.other made rfl rfl rfl (nomatch ·) fun s moved => ?_
    obtain ⟨made, -, rfl⟩ := map_eq_some_iff.mp moved
    rfl
  | clone | createUser | createNamed =>
    refine tally.other made rfl rfl rfl (fun _ => of_decide_eq_true ok) fun s moved => ?_
    exact zombies_create moved rfl

theorem Exact.step (l : Ledger) (call : Call) (l' : Ledger) (tally : Exact l)
    (ok : l.orderly call = true) (made : l.step call = some l') : Exact l' := by
  cases call with
  | event e => exact tally.event ok made
  | waitReap parentPid childPid => exact tally.waitReap parentPid childPid made

theorem exact_start (numbered : s.Numbered) (records : s.zombies.records = []) :
    Exact (start s) where
  records := records ▸ List.Perm.refl _
  once := nodup_nil
  numbered := numbered
  pastBelow := nofun
  ended := nofun

/-- In an orderly run every wait returns what it owes its caller. -/
theorem ends_reported_once {s : Scheduler} (numbered : s.Numbered) (records : s.zombies.records = [])
    (calls : List Call) (ok : Along step (fun l call => l.orderly call = true) calls (start s)) :
    Along step Reports calls (start s) :=
  Along.under Exact Exact.step (fun _ _ tally ok => tally.reports ok) (exact_start numbered records) ok

/-- The idle task, a task that runs, and its child. -/
def family : Scheduler :=
  .ofTasks [.new 0 0 [], { Task.new 1 0 [] with state := .running },
    { Task.new 2 0 [] with parentPid := 1 }] 1

/-- The child runs and exits; its parent waits for it and frees its slot. -/
theorem ends_reported_once_family :
    let calls : List Call := [.event (.yieldNow 0 0), .event (.exit 0 7), .event (.deliver 1 SIGCHLD),
      .event (.yieldNow 0 0), .waitReap 1 2]
    family.Numbered ∧ Along step Reports calls (start family) ∧
      ((exec step calls (start family)).map fun l => (l.reported, (l.sched.tasks 2).isSome)) =
        some ([2], false) := by
  have numbered : family.Numbered := numbered_ofTasks rfl 1
  exact ⟨numbered, ends_reported_once numbered rfl _ (by decide +kernel), by decide +kernel⟩

/-- A child that SIGKILL ends is not reported to its parent.  One that exits is reported to
    whoever names it, here the idle task, and `sys_waitpid` leaves its slot taken. -/
theorem killed_child_unreported :
    let killed : List Call := [.event (.deliver 2 SIGKILL), .event (.forceKill 2), .event (.wait 1 2)]
    let taken : List Call := [.event (.yieldNow 0 0), .event (.exit 0 7), .event (.wait 0 2)]
    ((exec step killed (start family)).map fun l => (l.owed, l.reported)) =
        some ([⟨2, 1, 9 <<< 8⟩], []) ∧
      ¬ Along step Reports killed (start family) ∧
      ((exec step taken (start family)).map fun l => (l.reported, (l.sched.tasks 2).isSome)) =
        some ([2], true) := by
  refine ⟨by decide +kernel, ?_, by decide +kernel⟩
  rintro ⟨-, later⟩
  obtain ⟨-, later⟩ := later _ rfl
  obtain ⟨reports, -⟩ := later _ rfl
  have answer := (reports 1 2 rfl _ rfl).1 ⟨2, 1, 9 <<< 8⟩ (by decide +kernel) rfl (by decide) rfl
  exact absurd answer (by decide +kernel)

end Ledger

end Zenus.Sched
