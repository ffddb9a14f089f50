import Zenus.Sched.Slots

/-! # Blocked and ended tasks

Which events leave a blocked task blocked, and which an ended task ended.  Both laws
are about one event; a run keeps them exactly if each of its events meets the
condition given here.
-/

namespace Zenus.Sched

open Lib.Word Lib.Run Option TaskState

namespace TaskState

def active (state : TaskState) : Bool := state == .ready || state == .running

def blocked : TaskState → Bool
  | .waiting | .sleeping | .stopped => true
  | .ready | .running | .terminated => false

theorem inactive_of_blocked {state : TaskState} (blocked : state.blocked = true) : state.active = false := by
  cases state with
  | waiting | sleeping | stopped => rfl
  | ready | running | terminated => exact nomatch blocked

end TaskState

namespace Scheduler

variable {s s' : Scheduler} {e : Event} {i : Slot} {t : Task} {id : Nat} {switch : Option Switch}

theorem getTask_of_slotOf (found : s.slotOf id = some i) : s.getTask id = s.tasks i := by
  rw [getTask, found]
  rfl

theorem getTask_all {test : Task → Bool} :
    (s.getTask id).all test = true ↔ ∀ i t, s.slotOf id = some i → s.tasks i = some t → test t = true := by
  rw [all_eq_true]
  constructor
  · intro each i t found here
    exact each t ((getTask_of_slotOf found).trans here)
  · intro each t found
    obtain ⟨i, at_i, here⟩ := bind_eq_some_iff.mp found
    exact each i t at_i here

theorem next_ne_of_inactive {switch : Switch} (which : s.switchOf e = some switch)
    (here : s.tasks i = some t) (inactive : t.state.active = false) : switch.next ≠ i := by
  rintro rfl
  obtain ⟨nxt, at_next, active⟩ := switchOf_active which
  cases at_next.symm.trans here
  exact absurd (inactive.symm.trans active) Bool.false_ne_true

theorem current_of_inactive (made : s.step e = some s') (here : s.tasks i = some t)
    (inactive : t.state.active = false) (cpu : Nat) (turned : s'.current cpu = i) : s.current cpu = i := by
  rw [step_current made] at turned
  cases which : s.switchOf e with
  | none => rwa [which] at turned
  | some switch =>
    rw [which, turnTo, Function.update_apply] at turned
    split at turned
    · exact absurd turned (next_ne_of_inactive which here inactive)
    · exact turned

theorem freedBy_spec (freed : s.freedBy e = some i) :
    ∃ t, s.tasks i = some t ∧ (t.state.active = true ∨ t.state = .terminated) := by
  cases e with
  | kill cpu id =>
    have found := ((ite_none_left_eq_some ..).mp freed).2
    obtain ⟨t, at_i, both⟩ := (any_eq_true ..).mp (test_of_firstSlot found)
    exact ⟨t, at_i, .inl (Bool.and_eq_true_iff.mp both).2⟩
  | reap id =>
    obtain ⟨t, at_i, both⟩ := (any_eq_true ..).mp (test_of_firstSlot freed)
    exact ⟨t, at_i, .inr (eq_of_beq (Bool.and_eq_true_iff.mp both).2)⟩
  | _ => exact nomatch freed

/-! ## Blocked tasks -/

/-- The events that may wake the task in a slot: a wake on its futex, SIGCONT and an
    explicit change of its state.  No timer does. -/
def Wakes (s : Scheduler) (e : Event) (i : Slot) : Prop :=
  match e with
  | .setState id _ => s.slotOf id = some i
  | .deliver id sig => sig = SIGCONT ∧ s.slotOf id = some i
  | .futexWake addr count => ∃ id ∈ s.wokenBy addr count, s.slotOf id = some i
  | _ => False

/-- A blocked task that an event does not wake is neither ready nor running after it,
    and no processor turns to it. -/
def StaysBlocked (s : Scheduler) (e : Event) : Prop :=
  ∀ i t, s.tasks i = some t → t.state.blocked = true → ¬ s.Wakes e i →
    ∀ s', s.step e = some s' →
      (∃ t', s'.tasks i = some t' ∧ t'.id = t.id ∧ t'.state ≠ .ready ∧ t'.state ≠ .running) ∧
      ∀ cpu, s'.current cpu = i → s.current cpu = i

/-- No switch leaves a blocked task, and no signal but SIGCONT finds its task asleep. -/
def undisturbed (s : Scheduler) : Event → Bool
  | .yieldNow cpu savedRsp =>
    (s.switchOf (.yieldNow cpu savedRsp)).all fun switch =>
      (s.tasks switch.current).all fun t => !t.state.blocked
  | .tick cpu currentRsp locked =>
    (s.switchOf (.tick cpu currentRsp locked)).all fun switch =>
      (s.tasks switch.current).all fun t => !t.state.blocked
  | .deliver id sig =>
    sig == SIGCONT || (s.getTask id).all fun t => t.state != .sleeping && t.state != .waiting
  | _ => true

theorem turns_of_blocked (made : s.step e = some s') (here : s.tasks i = some t)
    (blocked : t.state.blocked = true) : t.Turns (some (s.stateAfter e i t.state)) (s'.tasks i) := by
  have kept : s.freedBy e ≠ some i := by
    intro freed
    obtain ⟨t', at_i, active | ended⟩ := freedBy_spec freed
    · cases at_i.symm.trans here
      exact absurd ((inactive_of_blocked blocked).symm.trans active) Bool.false_ne_true
    · cases at_i.symm.trans here
      exact absurd blocked (by rw [ended]; exact Bool.false_ne_true)
  have turns := step_slot made here
  rwa [nextState, if_neg kept] at turns

theorem staysBlocked_of_inactive (quiet : ∀ i t, s.tasks i = some t → t.state.blocked = true → ¬ s.Wakes e i →
      (s.stateAfter e i t.state).active = false) : s.StaysBlocked e := by
  intro i t here blocked asleep s' made
  obtain ⟨t', after, state, kept⟩ := turns_of_blocked made here blocked
  refine ⟨⟨t', after, kept.id, ?_⟩, current_of_inactive made here (inactive_of_blocked blocked)⟩
  have inactive := quiet i t here blocked asleep
  rw [← state] at inactive
  constructor <;> intro woken <;> rw [woken] at inactive <;> exact nomatch inactive

theorem stateAfter_ne_ready (stays : s.StaysBlocked e) (made : s.step e = some s')
    (here : s.tasks i = some t) (blocked : t.state.blocked = true) (asleep : ¬ s.Wakes e i) :
    s.stateAfter e i t.state ≠ .ready := by
  obtain ⟨⟨t', after, -, unready, -⟩, -⟩ := stays i t here blocked asleep s' made
  obtain ⟨t'', after', state, -⟩ := turns_of_blocked made here blocked
  cases after.symm.trans after'
  rwa [← state]

theorem switch_blocked_iff (which : s.switchOf e = switch)
    (effect : ∀ i state, s.stateAfter e i state = afterSwitch switch i state)
    (silent : ∀ i, ¬ s.Wakes e i) (steps : ∃ s', s.step e = some s') :
    s.StaysBlocked e ↔ switch.all (fun sw => (s.tasks sw.current).all fun t => !t.state.blocked) = true := by
  obtain ⟨s', made⟩ := steps
  constructor
  · intro stays
    rw [all_eq_true]
    intro sw at_sw
    rw [all_eq_true]
    intro t here
    by_contra blocked
    simp only [Bool.not_eq_true', Bool.not_eq_false] at blocked
    refine stateAfter_ne_ready stays made here blocked (silent _) ?_
    rw [effect, at_sw]
    have alive : t.state ≠ .terminated := by
      intro ended
      rw [ended] at blocked
      exact nomatch blocked
    simp [afterSwitch, alive]
  · intro calm
    refine staysBlocked_of_inactive fun i t here blocked _ => ?_
    rw [effect]
    cases switch with
    | none => exact inactive_of_blocked blocked
    | some sw =>
      have left : sw.current ≠ i := by
        rintro rfl
        simp [here, blocked] at calm
      have entered := next_ne_of_inactive which here (inactive_of_blocked blocked)
      simp only [afterSwitch, left, entered, if_false]
      exact inactive_of_blocked blocked

theorem deliver_blocked_iff (id sig : Nat) :
    s.StaysBlocked (.deliver id sig) ↔ s.undisturbed (.deliver id sig) = true := by
  rw [undisturbed, Bool.or_eq_true, beq_iff_eq, getTask_all]
  constructor
  · intro stays
    by_cases cont : sig = SIGCONT
    · exact .inl cont
    refine .inr fun i t found here => ?_
    by_contra asleep
    have asleep : t.state = .sleeping ∨ t.state = .waiting := by
      simpa [-not_and, not_and_or] using asleep
    have blocked : t.state.blocked = true := by
      obtain state | state := asleep <;> rw [state] <;> rfl
    exact stateAfter_ne_ready stays rfl here blocked (fun wakes => cont wakes.1) (if_pos ⟨found, asleep⟩)
  · intro calm
    refine staysBlocked_of_inactive fun i t here blocked quiet => ?_
    have awake : ¬ (s.slotOf id = some i ∧ (t.state = .sleeping ∨ t.state = .waiting)) := by
      rintro ⟨found, asleep⟩
      obtain cont | each := calm
      · exact quiet ⟨cont, found⟩
      · have := each i t found here
        obtain state | state := asleep <;> rw [state] at this <;> exact nomatch this
    rw [stateAfter, if_neg awake]
    exact inactive_of_blocked blocked

theorem staysBlocked_iff (s : Scheduler) (e : Event) : s.StaysBlocked e ↔ s.undisturbed e = true := by
  have target : ∀ {c : Prop} [Decidable c] {state new : TaskState}, state.blocked = true →
      (c → new.active = false) → (if c then new else state).active = false := by
    intro c _ state new blocked quiet
    split
    · rename_i holds
      exact quiet holds
    · exact inactive_of_blocked blocked
  cases e with
  | yieldNow cpu savedRsp | tick cpu currentRsp locked =>
    exact switch_blocked_iff rfl (fun _ _ => rfl) (fun _ => id) ⟨_, rfl⟩
  | setState id state | futexWake addr count =>
    refine iff_of_true (staysBlocked_of_inactive fun i t here blocked asleep => ?_) rfl
    exact target blocked fun found => absurd found asleep
  | deliver id sig => exact deliver_blocked_iff id sig
  | forceKill id | exit cpu code | futexWait cpu addr val userVal =>
    refine iff_of_true (staysBlocked_of_inactive fun i t here blocked asleep => ?_) rfl
    exact target blocked fun _ => rfl
  | _ =>
    refine iff_of_true (staysBlocked_of_inactive fun i t here blocked asleep => ?_) rfl
    exact inactive_of_blocked blocked

/-- A run keeps its blocked tasks blocked exactly if no switch leaves a blocked task and
    no signal but SIGCONT finds its task asleep. -/
theorem blocked_stay_blocked (s : Scheduler) (events : List Event) :
    Along step StaysBlocked events s ↔ Along step (fun s e => s.undisturbed e = true) events s :=
  along_congr staysBlocked_iff s

/-- The state of the task in a slot at the end of a run. -/
def stateAt (i : Slot) (s : Scheduler) : Option TaskState := (s.tasks i).map Task.state

/-- A task that waits on a futex sleeps until its own yield, which makes it ready. -/
theorem pair_futexWait_ready :
    (exec step ((pair.sysFutexWait 0 0x1000 0 0 0).take 1) pair).bind (stateAt 1) = some .sleeping ∧
    (exec step (pair.sysFutexWait 0 0x1000 0 0 0) pair).bind (stateAt 1) = some .ready ∧
    ¬ Along step StaysBlocked (pair.sysFutexWait 0 0x1000 0 0 0) pair := by
  refine ⟨by decide +kernel, by decide +kernel, fun along => ?_⟩
  rw [along_congr staysBlocked_iff] at along
  exact absurd along (by decide +kernel)

/-! ## Ended tasks -/

/-- An ended task stays ended until its slot is freed; no processor chooses it and none
    turns to it. -/
def StaysEnded (s : Scheduler) (e : Event) : Prop :=
  ∀ i t, s.tasks i = some t → t.state = .terminated →
    (∀ cpu, findNextReady s.tasks (s.current cpu) cpu = i → s.current cpu = i) ∧
    ∀ s', s.step e = some s' →
      (∀ t', s'.tasks i = some t' → t'.id = t.id ∧ t'.state = .terminated) ∧
      ∀ cpu, s'.current cpu = i → s.current cpu = i

/-- No change of a state finds its task ended: neither an explicit one, nor that of the
    task that waits on a futex, nor those of the tasks that a wake finds in the queue. -/
def sparesEnded (s : Scheduler) : Event → Bool
  | .setState id state => state == .terminated || (s.getTask id).all (·.state != .terminated)
  | .futexWait cpu addr val userVal =>
    !(s.futexWait cpu addr val userVal).1 ||
      (s.getTask (s.currentTaskId cpu)).all (·.state != .terminated)
  | .futexWake addr count =>
    (s.wokenBy addr count).all fun id => (s.getTask id).all (·.state != .terminated)
  | _ => true

theorem staysEnded_of_stateAfter (quiet : ∀ i t, s.tasks i = some t → t.state = .terminated →
      s.stateAfter e i .terminated = .terminated) : s.StaysEnded e := by
  intro i t here ended
  have inactive : t.state.active = false := by rw [ended]; rfl
  refine ⟨fun cpu chosen => ?_, fun s' made => ⟨fun t' after => ?_, current_of_inactive made here inactive⟩⟩
  · obtain alone | ⟨nxt, at_next, active⟩ := findNextReady_active s.tasks (s.current cpu) cpu
    · exact alone.symm.trans chosen
    · rw [chosen, here] at at_next
      cases some.inj at_next
      exact absurd (inactive.symm.trans active) Bool.false_ne_true
  · have turns := step_slot made here
    rw [nextState, ended, quiet i t here ended, after] at turns
    split at turns
    · cases turns
    · obtain ⟨t'', same, state, kept⟩ := turns
      cases same
      exact ⟨kept.id, state⟩

theorem stateAfter_of_staysEnded (stays : s.StaysEnded e) (made : s.step e = some s')
    (kept : s.freedBy e = none) (here : s.tasks i = some t) (ended : t.state = .terminated) :
    s.stateAfter e i .terminated = .terminated := by
  have turns := step_slot made here
  rw [nextState, kept, if_neg (some_ne_none _).symm, ended] at turns
  obtain ⟨t', after, state, -⟩ := turns
  rw [← state]
  exact (((stays i t here ended).2 s' made).1 t' after).2

/-- An event that gives a state to chosen tasks spares the ended ones exactly if it chooses
    none of them, or ends them. -/
theorem staysEnded_ite_iff (chosen : Slot → Prop) [DecidablePred chosen] {new : TaskState}
    (effect : ∀ i state, s.stateAfter e i state = if chosen i then new else state)
    (kept : s.freedBy e = none) (steps : ∃ s', s.step e = some s') :
    s.StaysEnded e ↔ new = .terminated ∨ ∀ i t, chosen i → s.tasks i = some t → t.state ≠ .terminated := by
  obtain ⟨s', made⟩ := steps
  constructor
  · intro stays
    refine or_iff_not_imp_left.mpr fun other i t which here ended => other ?_
    have same := stateAfter_of_staysEnded stays made kept here ended
    rwa [effect, if_pos which] at same
  · intro spares
    refine staysEnded_of_stateAfter fun i t here ended => ?_
    rw [effect]
    split
    · rename_i which
      exact spares.resolve_right fun each => each i t which here ended
    · rfl

theorem afterSwitch_ended (which : s.switchOf e = switch)
    (here : s.tasks i = some t) (ended : t.state = .terminated) :
    afterSwitch switch i .terminated = .terminated := by
  cases switch with
  | none => rfl
  | some sw =>
    have entered := next_ne_of_inactive which here (by rw [ended]; rfl)
    simp only [afterSwitch, if_true, entered, if_false, ite_self]

theorem staysEnded_iff (s : Scheduler) (e : Event) : s.StaysEnded e ↔ s.sparesEnded e = true := by
  cases e with
  | yieldNow cpu savedRsp | tick cpu currentRsp locked =>
    exact iff_of_true (staysEnded_of_stateAfter fun i t here ended => afterSwitch_ended rfl here ended) rfl
  | setState id state =>
    rw [staysEnded_ite_iff (s.slotOf id = some ·) (fun _ _ => rfl) rfl ⟨_, rfl⟩]
    simp only [sparesEnded, Bool.or_eq_true, beq_iff_eq, getTask_all, bne_iff_ne]
  | futexWait cpu addr val userVal =>
    rw [staysEnded_ite_iff
      (fun i => (s.futexWait cpu addr val userVal).1 = true ∧ s.slotOf (s.currentTaskId cpu) = some i)
      (fun _ _ => rfl) rfl ⟨_, rfl⟩]
    simp only [sparesEnded, Bool.or_eq_true, getTask_all, bne_iff_ne, Bool.not_eq_true']
    cases (s.futexWait cpu addr val userVal).1 <;> simp
  | futexWake addr count =>
    rw [staysEnded_ite_iff (fun i => ∃ id ∈ s.wokenBy addr count, s.slotOf id = some i)
      (fun _ _ => rfl) rfl ⟨_, rfl⟩]
    simp only [sparesEnded, List.all_eq_true, getTask_all, bne_iff_ne]
    grind
  | deliver id sig =>
    refine iff_of_true (staysEnded_of_stateAfter fun i t here ended => if_neg ?_) rfl
    rintro ⟨-, asleep | waiting⟩
    · exact nomatch asleep
    · exact nomatch waiting
  | forceKill id | exit cpu code =>
    exact iff_of_true (staysEnded_of_stateAfter fun i t here ended => ite_self _) rfl
  | _ => exact iff_of_true (staysEnded_of_stateAfter fun i t here ended => rfl) rfl

/-- A run keeps its ended tasks ended exactly if no change of a state finds one. -/
theorem ended_stay_ended (s : Scheduler) (events : List Event) :
    Along step StaysEnded events s ↔ Along step (fun s e => s.sparesEnded e = true) events s :=
  along_congr staysEnded_iff s

/-- The second task has ended; then the first one, which may signal all, sends SIGCONT. -/
theorem pair_sigcont_ready :
    let killed := deliverSignalTo 2 SIGKILL
    let events := killed ++ ((exec step killed pair).getD pair |>.sysKill 0 (WORD - 1) SIGCONT).2
    (exec step killed pair).bind (stateAt 2) = some .terminated ∧
    (exec step events pair).bind (stateAt 2) = some .ready ∧
    ¬ Along step StaysEnded events pair := by
  refine ⟨by decide +kernel, by decide +kernel, fun along => ?_⟩
  rw [along_congr staysEnded_iff] at along
  exact absurd along (by decide +kernel)

end Scheduler

end Zenus.Sched
