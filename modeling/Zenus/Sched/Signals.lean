import Zenus.Sched.Numbers

/-! # The permission to send signals

`kill` reaches a task only after `may_kill` was asked about it, by each of its three
searches.  `tgkill` asks nothing, so that what it does to a task of another user is
exactly what the delivery does.
-/

namespace Zenus.Sched

open Lib.Word Lib.Run Option List

/-- The event delivers, clears or completes a signal of the task with the number. -/
def Event.For (id : Nat) : Event → Prop
  | .setState other _ | .deliver other _ | .clear other _ | .forceKill other => other = id
  | _ => False

/-- A signal changes nothing of a task that has it pending already, does not sleep or
    wait and, if it is to be killed, is terminated. -/
def Task.Unmoved (sig : Nat) (t : Task) : Prop :=
  t.pendingSignals.testBit sig ∧ t.state ≠ .sleeping ∧ t.state ≠ .waiting ∧
    (sig = SIGKILL → t.state = .terminated)

theorem pending_signalled (sig : Nat) (t : Task) :
    (signalled sig t).pendingSignals = t.pendingSignals ||| 1 <<< sig :=
  (apply_ite Task.pendingSignals ..).trans (ite_self _)

theorem or_bit_eq_iff (pending sig : Nat) : pending ||| 1 <<< sig = pending ↔ pending.testBit sig := by
  constructor
  · intro same
    rw [← same]
    simp
  · intro isPending
    refine Nat.eq_of_testBit_eq fun i => ?_
    rcases eq_or_ne sig i with rfl | other
    · simp [isPending]
    · simp [Nat.one_shiftLeft, Nat.testBit_two_pow_of_ne other]

theorem state_signalled_eq_iff (sig : Nat) (t : Task) :
    (signalled sig t).state = t.state ↔ t.state ≠ .sleeping ∧ t.state ≠ .waiting := by
  rw [Scheduler.state_signalled]
  cases t.state <;> simp

/-- What the events of a `tgkill` make of the task they are for. -/
def struck (sig : Nat) (t : Task) : Task :=
  if sig = SIGKILL then { signalled sig t with state := .terminated, exitCode := 9 <<< 8 }
  else signalled sig t

theorem struck_eq_iff (sig : Nat) (t : Task) :
    ((struck sig t).pendingSignals = t.pendingSignals ∧ (struck sig t).state = t.state) ↔ t.Unmoved sig := by
  unfold struck Task.Unmoved
  by_cases kills : sig = SIGKILL
  · rw [if_pos kills]
    refine and_congr ((pending_signalled sig t) ▸ or_bit_eq_iff ..) ?_
    cases t.state <;> simp [kills]
  · rw [if_neg kills, pending_signalled, or_bit_eq_iff, state_signalled_eq_iff]
    simp [kills]

namespace Scheduler

variable {s s' : Scheduler} {cpu id sig : Nat} {i : Slot} {t sender : Task}

/-! ## The calls -/

/-- `sys_tgkill`: the result and the events. -/
def sysTgkill (s : Scheduler) (cpu tid sig : Nat) : Nat × List Event :=
  if sig = 0 ∨ 64 ≤ sig then (WORD - 1, [])
  else
    match (if tid ≠ 0 then (s.getTask tid).map Task.id else some (s.currentTaskId cpu)) with
    | some id => (0, if sig = SIGKILL then [.deliver id sig, .forceKill id] else [.deliver id sig])
    | none => (WORD - 1, [])

inductive SignalCall where
  | kill (pid sig : Nat)
  | tgkill (tid sig : Nat)

def SignalCall.events (s : Scheduler) (cpu : Nat) : SignalCall → List Event
  | .kill pid sig => (s.sysKill cpu pid sig).2
  | .tgkill tid sig => (s.sysTgkill cpu tid sig).2

/-- The table after a call of the task that the processor runs. -/
def SignalCall.perform (s : Scheduler) (cpu : Nat) (call : SignalCall) : Option Scheduler :=
  exec step (call.events s cpu) s

/-- Every other task that the sender may not kill has the pending signals and the state
    it had. -/
def Respects (s : Scheduler) (cpu : Nat) (sender : Task) (s' : Scheduler) : Prop :=
  ∀ i t, i ≠ s.current cpu → s.tasks i = some t → mayKill sender.uid sender.caps t.uid = false →
    ∃ t', s'.tasks i = some t' ∧ t'.pendingSignals = t.pendingSignals ∧ t'.state = t.state

/-- The task that a `tgkill` names is the sender, one it may kill, or one that the signal
    changes nothing of. -/
def SignalCall.Permitted (s : Scheduler) (cpu : Nat) (sender : Task) : SignalCall → Prop
  | .kill .. => True
  | .tgkill tid sig => sig = 0 ∨ 64 ≤ sig ∨ tid = 0 ∨
      ∀ i t, i ≠ s.current cpu → s.tasks i = some t → t.id = tid →
        mayKill sender.uid sender.caps t.uid = true ∨ t.Unmoved sig

/-! ## Whom the events reach -/

theorem step_for {e : Event} (toward : e.For id) :
    ∃ change : Task → Task, s.step e = some (s.changeTask id change) := by
  cases e with
  | setState | deliver | clear | forceKill =>
    cases toward
    exact ⟨_, rfl⟩
  | _ => exact toward.elim

theorem tasks_changeTask_other (change : Task → Task) (here : s.tasks i = some t)
    (other : t.id ≠ id) : (s.changeTask id change).tasks i = some t := by
  rw [tasks_changeTask, if_neg, here]
  intro found
  obtain ⟨u, there, same⟩ := task_of_slotOf found
  cases here.symm.trans there
  exact other same

theorem exec_for {events : List Event} (ids : List Nat) (toward : ∀ e ∈ events, ∃ id ∈ ids, e.For id)
    (s : Scheduler) :
    ∃ s', exec step events s = some s' ∧ ∀ i t, s.tasks i = some t → t.id ∉ ids → s'.tasks i = some t := by
  induction events generalizing s with
  | nil => exact ⟨s, rfl, fun _ _ here _ => here⟩
  | cons e events ih =>
    obtain ⟨⟨id, listed, aims⟩, rest⟩ := forall_mem_cons.mp toward
    obtain ⟨change, made⟩ := step_for aims
    obtain ⟨s', run, kept⟩ := ih rest (s.changeTask id change)
    refine ⟨s', exec_cons.mpr ⟨_, made, run⟩, fun i t here apart => ?_⟩
    refine kept i t (tasks_changeTask_other change here fun same => ?_) apart
    exact apart (same ▸ listed)

theorem deliverSignalTo_for : ∀ e ∈ deliverSignalTo id sig, e.For id := by
  unfold deliverSignalTo
  split
  · simp [Event.For]
  · split <;> simp [Event.For]

theorem sysKill_for (numbered : Numbered s) (here : s.tasks (s.current cpu) = some sender) (pid sig : Nat) :
    ∀ e ∈ (s.sysKill cpu pid sig).2, ∃ id, e.For id ∧ (id = sender.id ∨
      ∃ i t, s.tasks i = some t ∧ t.id = id ∧ mayKill sender.uid sender.caps t.uid = true) := by
  intro e sent
  have self : s.currentTaskId cpu = sender.id := by rw [currentTaskId, here]; rfl
  have caps := numbered.getTask_current here
  rw [self] at caps
  simp only [sysKill, here, caps, self, map_some, getD_some] at sent
  split at sent
  · cases sent
  · split at sent
    · exact ⟨_, deliverSignalTo_for e sent, .inl rfl⟩
    · split at sent
      · obtain ⟨t, listed, sent⟩ := mem_flatMap.mp sent
        obtain ⟨i, -, found⟩ := mem_filterMap.mp listed
        obtain ⟨there, allowed⟩ := filter_eq_some_iff.mp found
        exact ⟨t.id, deliverSignalTo_for e sent, .inr ⟨i, t, there, rfl, allowed⟩⟩
      · split at sent
        · cases sent
        · next t found =>
          split at sent
          · next allowed =>
            obtain ⟨i, -, there⟩ := bind_eq_some_iff.mp found
            exact ⟨t.id, deliverSignalTo_for e sent, .inr ⟨i, t, there, rfl, allowed⟩⟩
          · cases sent

theorem perform_kill_respects (numbered : Numbered s) (here : s.tasks (s.current cpu) = some sender)
    (pid sig : Nat) : ∃ s', (SignalCall.kill pid sig).perform s cpu = some s' ∧ Respects s cpu sender s' := by
  have toward := sysKill_for numbered here pid sig
  choose! target aims reaches using toward
  obtain ⟨s', run, kept⟩ := exec_for ((s.sysKill cpu pid sig).2.map target)
    (fun e sent => ⟨target e, mem_map_of_mem sent, aims e sent⟩) s
  refine ⟨s', run, fun i t other there forbidden => ⟨t, kept i t there ?_, rfl, rfl⟩⟩
  intro listed
  obtain ⟨e, sent, same⟩ := mem_map.mp listed
  cases reaches e sent with
  | inl self => exact other (numbered.apart _ _ _ _ there here (same.symm.trans self))
  | inr allowed =>
    obtain ⟨j, u, at_j, number, allowed⟩ := allowed
    cases numbered.apart _ _ _ _ there at_j (same.symm.trans number.symm)
    cases there.symm.trans at_j
    rw [forbidden] at allowed
    cases allowed

/-! ## `tgkill` -/

theorem exec_struck (numbered : Numbered s) (there : s.tasks i = some t) (sig : Nat) :
    ∃ s', exec step (if sig = SIGKILL then [.deliver t.id sig, .forceKill t.id]
        else [.deliver t.id sig]) s = some s' ∧ s'.tasks i = some (struck sig t) ∧
      ∀ j u, j ≠ i → s.tasks j = some u → s'.tasks j = some u := by
  have found := numbered.slotOf there
  have keeps : ∀ t : Task, (signalled sig t).id = t.id := fun t => (kept_signalled sig t).id
  have apart : ∀ j u, j ≠ i → s.tasks j = some u → u.id ≠ t.id :=
    fun j u other at_j same => other (numbered.apart _ _ _ _ at_j there same)
  have first : (s.signalDeliver t.id sig).tasks i = some (signalled sig t) := by
    rw [signalDeliver, tasks_changeTask, if_pos found, there, map_some]
  unfold struck
  by_cases kills : sig = SIGKILL
  · rw [if_pos kills, if_pos kills]
    refine ⟨_, rfl, ?_, fun j u other at_j => ?_⟩
    · rw [signalForceKill, tasks_changeTask, signalDeliver, slotOf_changeTask keeps, if_pos found,
        ← signalDeliver, first, map_some]
    · exact tasks_changeTask_other _ (tasks_changeTask_other _ at_j (apart j u other at_j))
        (apart j u other at_j)
  · rw [if_neg kills, if_neg kills]
    exact ⟨_, rfl, first, fun j u other at_j => tasks_changeTask_other _ at_j (apart j u other at_j)⟩

theorem respects_of_same (same : ∀ j u, j ≠ s.current cpu → s.tasks j = some u → s'.tasks j = some u) :
    Respects s cpu sender s' :=
  fun j u other there _ => ⟨u, same j u other there, rfl, rfl⟩

/-- A signal to one other task respects the permission if it was given for this task, or
    the task stays as it was. -/
theorem respects_struck_iff (there : s.tasks i = some t) (other : i ≠ s.current cpu)
    (here' : s'.tasks i = some (struck sig t))
    (kept : ∀ j u, j ≠ i → s.tasks j = some u → s'.tasks j = some u) :
    Respects s cpu sender s' ↔ mayKill sender.uid sender.caps t.uid = true ∨ t.Unmoved sig := by
  constructor
  · intro respects
    refine or_iff_not_imp_left.mpr fun forbidden => (struck_eq_iff sig t).mp ?_
    obtain ⟨t', at_i, same⟩ := respects i t other there (Bool.eq_false_of_not_eq_true forbidden)
    cases here'.symm.trans at_i
    exact same
  · intro allowed j u _ at_j forbidden
    rcases eq_or_ne j i with rfl | elsewhere
    · cases there.symm.trans at_j
      have unmoved := allowed.resolve_left (by simp [forbidden])
      exact ⟨_, here', (struck_eq_iff sig t).mpr unmoved⟩
    · exact ⟨u, kept j u elsewhere at_j, rfl, rfl⟩

theorem perform_tgkill_iff (numbered : Numbered s) (here : s.tasks (s.current cpu) = some sender)
    (tid sig : Nat) :
    (∃ s', (SignalCall.tgkill tid sig).perform s cpu = some s' ∧ Respects s cpu sender s') ↔
      (SignalCall.tgkill tid sig).Permitted s cpu sender := by
  have self : s.currentTaskId cpu = sender.id := by rw [currentTaskId, here]; rfl
  have found : ∀ i t, s.tasks i = some t → s.getTask t.id = some t := by
    intro i t there
    rw [getTask, numbered.slotOf there]
    exact there
  simp only [SignalCall.perform, SignalCall.events, SignalCall.Permitted, sysTgkill, self]
  by_cases invalid : sig = 0 ∨ 64 ≤ sig
  · rw [if_pos invalid]
    exact iff_of_true ⟨s, rfl, respects_of_same fun _ _ _ at_j => at_j⟩ (invalid.imp id .inl)
  rw [if_neg invalid]
  obtain ⟨nonzero, small⟩ := not_or.mp invalid
  simp only [nonzero, small, false_or]
  by_cases zero : tid = 0
  · rw [if_neg (not_not.mpr zero)]
    obtain ⟨s', run, -, kept⟩ := exec_struck numbered here sig
    exact iff_of_true ⟨s', run, respects_of_same kept⟩ (.inl zero)
  rw [if_pos zero]
  simp only [zero, false_or]
  cases target : s.getTask tid with
  | none =>
    refine iff_of_true ⟨s, rfl, respects_of_same fun _ _ _ at_j => at_j⟩ fun i t _ there same => ?_
    rw [← same, found i t there] at target
    cases target
  | some t =>
    obtain ⟨i, slot, there⟩ := bind_eq_some_iff.mp target
    obtain ⟨u, at_i, number⟩ := task_of_slotOf slot
    cases there.symm.trans at_i
    obtain ⟨s', run, here', kept⟩ := exec_struck numbered there sig
    rw [map_some]
    -- The number names one slot, so that the condition is about that slot only.
    have only : ∀ j u, s.tasks j = some u → u.id = tid → j = i :=
      fun j u at_j same => numbered.apart _ _ _ _ at_j there (same.trans number.symm)
    rcases eq_or_ne i (s.current cpu) with rfl | other
    · refine iff_of_true ⟨s', run, respects_of_same kept⟩ fun j u elsewhere at_j same => ?_
      exact absurd (only j u at_j same) elsewhere
    · simp only [number, number ▸ run, some.injEq, exists_eq_left']
      rw [respects_struck_iff there other here' kept]
      constructor
      · intro allowed j u elsewhere at_j same
        cases only j u at_j same
        cases there.symm.trans at_j
        exact allowed
      · exact fun allowed => allowed i t other there number

/-- A call for a signal leaves the pending signals and the state of every other task that
    the sender may not kill as they were, if and only if it is a `kill`, or a `tgkill`
    of a task that the sender may kill, or that the signal changes nothing of. -/
theorem signals_respect_iff (numbered : Numbered s) (here : s.tasks (s.current cpu) = some sender)
    (call : SignalCall) :
    (∃ s', call.perform s cpu = some s' ∧ Respects s cpu sender s') ↔ call.Permitted s cpu sender := by
  cases call with
  | kill pid sig => exact iff_of_true (perform_kill_respects numbered here pid sig) trivial
  | tgkill tid sig => exact perform_tgkill_iff numbered here tid sig

/-- The idle task and the tasks of two users without capabilities, of which the first runs. -/
def users : Scheduler :=
  ofTasks [.new 0 0 [], { Task.new 1 0 [] with uid := 1000, caps := .none, state := .running },
    { Task.new 2 0 [] with uid := 1001, caps := .none }] 1

theorem numbered_users : Numbered users := numbered_ofTasks (by decide) _

/-- `kill` to all, with the signal that cannot be caught, by a user without capabilities. -/
theorem signals_respect_broadcast :
    ∃ s', (SignalCall.kill (WORD - 1) SIGKILL).perform users 0 = some s' ∧
      Respects users 0 { Task.new 1 0 [] with uid := 1000, caps := .none, state := .running } s' :=
  (signals_respect_iff numbered_users rfl _).mpr trivial

/-- `tgkill` ends a task of another user, whom `kill` refuses to touch. -/
theorem tgkill_ends_another_user :
    users.sysKill 0 2 SIGKILL = (WORD - 1, []) ∧ (users.sysTgkill 0 2 SIGKILL).1 = 0 ∧
      (((SignalCall.tgkill 2 SIGKILL).perform users 0).bind fun s => s.tasks 2).map Task.state =
        some .terminated ∧
      ¬ ∃ s', (SignalCall.tgkill 2 SIGKILL).perform users 0 = some s' ∧
        Respects users 0 { Task.new 1 0 [] with uid := 1000, caps := .none, state := .running } s' := by
  refine ⟨rfl, by decide +kernel, by decide +kernel, fun respected => ?_⟩
  have permitted := (perform_tgkill_iff numbered_users rfl 2 SIGKILL).mp respected
  have allowed := permitted.resolve_left (by decide) |>.resolve_left (by decide)
    |>.resolve_left (by decide) 2 _ (by decide) rfl rfl
  simp [mayKill, CapSet.has, CapSet.none, CAP_KILL, Task.Unmoved, Task.new] at allowed

end Scheduler

end Zenus.Sched
