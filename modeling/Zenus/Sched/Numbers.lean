import Zenus.Sched.Slots

/-! # The numbers of tasks

As long as the counter of the numbers does not wrap, no two tasks of the table have
one number, so that a search by number finds the task that has it.
-/

namespace Zenus.Sched.Scheduler

open Lib.Word Lib.Run Option

variable {s s' : Scheduler} {e : Event} {i j : Slot} {t task : Task}

/-- No two slots hold tasks of one number, and the next number is new. -/
structure Numbered (s : Scheduler) : Prop where
  apart : ∀ i j t t', s.tasks i = some t → s.tasks j = some t' → t.id = t'.id → i = j
  below : ∀ i t, s.tasks i = some t → t.id < s.nextTaskId

theorem id_of_newTask (new : s.newTask e = some task) : task.id = s.nextTaskId := by
  cases e with
  | clone cpu flags stackSize entry cr3 userRsp heapBrk supply =>
    obtain ⟨parent, ns, -, rfl⟩ := newTask_clone new
    rfl
  | createUser | createNamed =>
    cases some.inj ((ite_none_right_eq_some ..).mp new).2
    rfl
  | _ => exact nomatch new

theorem enrol_frame (s : Scheduler) (task : Task) :
    (s.enrol task).2.zombies = s.zombies ∧ (s.enrol task).2.nextTaskId = s.nextTaskId := by
  unfold enrol
  split
  · exact ⟨rfl, rfl⟩
  · dsimp only
    split <;> exact ⟨rfl, rfl⟩

theorem Numbered.insert (numbered : Numbered s) (next : s'.nextTaskId = s.nextTaskId + 1)
    (tasks : ∀ i t, s'.tasks i = some t → s.tasks i = some t ∨ (i = j ∧ t.id = s.nextTaskId)) :
    Numbered s' where
  apart i₁ i₂ t₁ t₂ here there same := by
    obtain before₁ | ⟨rfl, new₁⟩ := tasks i₁ t₁ here
    · obtain before₂ | ⟨rfl, new₂⟩ := tasks i₂ t₂ there
      · exact numbered.apart i₁ i₂ t₁ t₂ before₁ before₂ same
      · exact absurd (same.trans new₂) (numbered.below i₁ t₁ before₁).ne
    · obtain before₂ | ⟨rfl, -⟩ := tasks i₂ t₂ there
      · exact absurd (same.symm.trans new₁) (numbered.below i₂ t₂ before₂).ne
      · rfl
  below i t here := by
    rw [next]
    obtain before | ⟨-, new⟩ := tasks i t here
    · exact (numbered.below i t before).trans (Nat.lt_succ_self _)
    · exact new ▸ Nat.lt_succ_self _

theorem create_numbers (made : s.step e = some s') (creates : e.creates) (room : s.nextTaskId + 1 < WORD) :
    s' = s ∨ (s'.nextTaskId = s.nextTaskId + 1 ∧ ∃ j, ∀ i t, s'.tasks i = some t →
      s.tasks i = some t ∨ (i = j ∧ s.tasks j = none ∧ s.newTask e = some t)) := by
  have next : s.takeId.2.nextTaskId = s.nextTaskId + 1 := Nat.mod_eq_of_lt room
  obtain ⟨-, -, rfl | rfl⟩ | ⟨task, new, -, rfl⟩ := create_cases made creates
  · exact .inl rfl
  · exact .inr ⟨next, 0, fun _ _ => .inl⟩
  · refine .inr ⟨(enrol_frame ..).2.trans next, ?_⟩
    obtain ⟨-, same⟩ | ⟨j, free, -, put⟩ := s.takeId.2.tasks_enrol task
    · exact ⟨0, fun i t after => .inl (same ▸ after)⟩
    · refine ⟨j, fun i t after => ?_⟩
      rw [put] at after
      rcases eq_or_ne i j with rfl | other
      · rw [Function.update_self] at after
        cases after
        exact .inr ⟨rfl, free, new⟩
      · exact .inl ((Function.update_of_ne other ..).symm.trans after)

theorem Numbered.follow (numbered : Numbered s) (next : s'.nextTaskId = s.nextTaskId)
    (origin : ∀ i t', s'.tasks i = some t' → ∃ t, s.tasks i = some t ∧ t'.id = t.id) : Numbered s' where
  apart i j t t' here there same := by
    obtain ⟨u, before, number⟩ := origin i t here
    obtain ⟨u', before', number'⟩ := origin j t' there
    exact numbered.apart i j u u' before before' (number.symm.trans (same.trans number'))
  below i t here := by
    obtain ⟨u, before, number⟩ := origin i t here
    rw [next, number]
    exact numbered.below i u before

theorem Numbered.step (numbered : Numbered s) (made : s.step e = some s')
    (room : e.creates → s.nextTaskId + 1 < WORD) : Numbered s' := by
  by_cases creates : e.creates
  · obtain rfl | ⟨next, j, tasks⟩ := create_numbers made creates (room creates)
    · exact numbered
    · refine numbered.insert (j := j) next fun i t after => ?_
      exact (tasks i t after).imp_right fun ⟨here, _, new⟩ => ⟨here, id_of_newTask new⟩
  · refine numbered.follow (step_rest made creates).nextTaskId fun i t' after => ?_
    obtain ⟨t, before, kept, -⟩ := step_origin made creates after
    exact ⟨t, before, kept.id⟩

theorem Numbered.slotOf (numbered : Numbered s) (here : s.tasks i = some t) : s.slotOf t.id = some i := by
  obtain ⟨j, found⟩ := firstSlot_isSome (i := i) (fun j => (s.tasks j).any (·.id == t.id)) (by simp [here])
  obtain ⟨u, at_j, same⟩ := task_of_slotOf found
  cases numbered.apart j i u t at_j here same
  exact found

theorem Numbered.getTask_current (numbered : Numbered s) {cpu : Nat}
    (here : s.tasks (s.current cpu) = some t) : s.getTask (s.currentTaskId cpu) = some t := by
  have self : s.currentTaskId cpu = t.id := by rw [currentTaskId, here]; rfl
  rw [self, getTask, numbered.slotOf here]
  exact here

theorem numbered_ofTasks {tasks : List Task} (ids : tasks.map Task.id = List.range tasks.length)
    (current : Slot) : Numbered (ofTasks tasks current) := by
  have number : ∀ (i : Slot) t, tasks[i.val]? = some t → t.id = i.val ∧ i.val < tasks.length := by
    intro i t here
    obtain ⟨bound, -⟩ := List.getElem?_eq_some_iff.mp here
    have same : (tasks.map Task.id)[i.val]? = some t.id := by rw [List.getElem?_map, here]; rfl
    rw [ids, List.getElem?_range bound] at same
    exact ⟨(some.inj same).symm, bound⟩
  refine ⟨fun i j t t' here there same => Fin.ext ?_, fun i t here => ?_⟩
  · exact (number i t here).1.symm.trans (same.trans (number j t' there).1)
  · obtain ⟨same, bound⟩ := number i t here
    exact same ▸ bound

/-- As long as the numbers last, the search by number finds every task of the table,
    after any events. -/
theorem tasks_found_by_number {events : List Event} (start : Numbered s)
    (room : Along step (fun s e => e.creates → s.nextTaskId + 1 < WORD) events s) :
    Always step (fun s => ∀ i t, s.tasks i = some t → s.slotOf t.id = some i) events s :=
  room.always Numbered (fun _ _ _ numbered room made => numbered.step made room)
    (fun _ numbered _ _ => numbered.slotOf) start

theorem tasks_found_by_number_pair : Always step
    (fun s => ∀ i t, s.tasks i = some t → s.slotOf t.id = some i)
    [.clone 0 0 65536 0x400000 0 0 0 { stack := 0x100000, view := none }, .exit 0 7] pair :=
  tasks_found_by_number (numbered_ofTasks rfl _) (by decide +kernel)

end Zenus.Sched.Scheduler
