import Zenus.Sched.Events
import Zenus.Lib.RoundRobin
import Mathlib.Data.Fintype.Basic

/-! # The choice of the next task

`find_next_ready` searches the table four times: behind the current slot, before it, for a
task of another processor, and for the idle task.  `NextReady` says what the slot that it
finds promises, whichever search finds it; on one processor the choices are a round robin.
-/

namespace Zenus.Sched

open Lib.RoundRobin List

/-! ## Searches -/

section Search

variable {test q : Slot → Bool} {i current : Slot} {P p : Slot → Prop}

theorem test_of_firstSlot (found : firstSlot test = some i) : test i = true := find?_some found

theorem firstSlot_isSome (test : Slot → Bool) (passes : test i = true) : ∃ j, firstSlot test = some j := by
  cases found : firstSlot test with
  | some j => exact ⟨j, rfl⟩
  | none => exact absurd passes (find?_eq_none.mp found i (mem_finRange i))

theorem firstSlot_or [DecidablePred p] {rest : Option Slot}
    (found : ∀ i, p i → q i = true → (∀ j, p j → q j = true → i ≤ j) → P i)
    (missed : (∀ j, p j → ¬ q j = true) → P (rest.getD current)) :
    P (((firstSlot fun i => decide (p i) && q i) <|> rest).getD current) := by
  cases search : firstSlot fun i => decide (p i) && q i with
  | none =>
    refine missed fun j place passes => find?_eq_none.mp search j (mem_finRange j) ?_
    rw [decide_eq_true place, passes, Bool.and_true]
  | some i =>
    obtain ⟨passes, k, inside, here, before⟩ := find?_eq_some_iff_getElem.mp search
    obtain ⟨place, passes⟩ := Bool.and_eq_true_iff.mp passes
    rw [getElem_finRange] at here
    refine found i (of_decide_eq_true place) passes fun j place also => not_lt.mp fun earlier => ?_
    have fails := before j (Fin.lt_def.mp (here ▸ earlier))
    simp [also, place] at fails

end Search

section

variable (tasks : Slot → Option Task) (cpu : Nat) (i : Slot)

def active : Bool := (tasks i).any Task.isActive

def activeOn : Bool := (tasks i).any fun t => t.isActive && t.cpu == cpu

/-- The slots of the active tasks, but for the idle task. -/
def readySlots : Finset Slot := {i | 1 ≤ i.val ∧ active tasks i = true}

end

variable {tasks : Slot → Option Task} {current : Slot} {cpu : Nat} {i : Slot}

theorem active_of_activeOn (here : activeOn tasks cpu i = true) : active tasks i = true := by
  obtain ⟨t, at_i, both⟩ := (Option.any_eq_true ..).mp here
  exact (Option.any_eq_true ..).mpr ⟨t, at_i, (Bool.and_eq_true_iff.mp both).1⟩

/-- What the choice of the next slot promises. -/
structure NextReady (tasks : Slot → Option Task) (current : Slot) (cpu : Nat) (next : Slot) : Prop where
  /-- It is the slot of an active task, if it is another one, -/
  ready : next = current ∨ active tasks next = true
  /-- and not that of the idle task while another one can run on any processor. -/
  busy : (∃ i ∈ readySlots tasks, i ≠ current) → next ≠ 0
  /-- The slot stays only if none but the idle task of another processor can run. -/
  alone : next = current → ∀ i ≠ current, active tasks i = true → i = 0 ∧ activeOn tasks cpu 0 = false
  follows : (∀ i ∈ readySlots tasks, activeOn tasks cpu i = true) → (∃ i ∈ readySlots tasks, i ≠ current) →
    Follows (readySlots tasks) current next

theorem findNextReady_spec (tasks : Slot → Option Task) (current : Slot) (cpu : Nat) :
    NextReady tasks current cpu (findNextReady tasks current cpu) := by
  have member : ∀ i, i ∈ readySlots tasks ↔ 1 ≤ i.val ∧ active tasks i = true := by simp [readySlots]
  refine firstSlot_or (fun next above here first => ?_) fun later =>
    firstSlot_or (fun next below here first => ?_) fun sooner =>
    firstSlot_or (fun next other here _ => ?_) fun nowhere => ?_
  · refine ⟨.inr (active_of_activeOn here), fun _ => by grind, fun same => absurd same above.ne', fun own _ => ?_⟩
    exact ⟨(member _).mpr ⟨by grind, active_of_activeOn here⟩, .inl above, fun k mem more =>
      first k (more.resolve_left above.not_ge) (own k mem)⟩
  · refine ⟨.inr (active_of_activeOn here), fun _ => by grind, fun same => absurd same below.2.ne, fun own _ => ?_⟩
    have last : ∀ k ∈ readySlots tasks, k ≤ current := fun k mem => not_lt.mp fun high => later k high (own k mem)
    refine ⟨(member _).mpr ⟨below.1, active_of_activeOn here⟩, .inr last, fun k mem _ => ?_⟩
    rcases (last k mem).lt_or_eq with less | rfl
    · exact first k ⟨((member k).mp mem).1, less⟩ (own k mem)
    · exact below.2.le
  · refine ⟨.inr here, fun _ => by grind, fun same => absurd same other.2, fun own ⟨k, mem, apart⟩ => ?_⟩
    rcases apart.lt_or_gt with less | more
    · exact absurd (own k mem) (sooner k ⟨((member k).mp mem).1, less⟩)
    · exact absurd (own k mem) (later k more)
  · have idle : ∀ i ≠ current, active tasks i = true → i = 0 := by
      intro i apart runs
      by_contra other
      exact nowhere i ⟨Nat.pos_of_ne_zero fun zero => other (Fin.ext zero), apart⟩ runs
    have empty : ¬ ∃ i ∈ readySlots tasks, i ≠ current := by
      rintro ⟨i, mem, apart⟩
      exact nowhere i ⟨((member i).mp mem).1, apart⟩ ((member i).mp mem).2
    change NextReady tasks current cpu ((if activeOn tasks cpu 0 = true then some 0 else none).getD current)
    split_ifs with here
    · refine ⟨.inr (active_of_activeOn here), fun busy => absurd busy empty, fun same i apart runs => ?_,
        fun _ busy => absurd busy empty⟩
      exact absurd ((idle i apart runs).trans same) apart
    · exact ⟨.inl rfl, fun busy => absurd busy empty, fun _ i apart runs => ⟨idle i apart runs, by simpa using here⟩,
        fun _ busy => absurd busy empty⟩

theorem findNextReady_active (tasks : Slot → Option Task) (current : Slot) (cpu : Nat) :
    findNextReady tasks current cpu = current ∨
      ∃ t, tasks (findNextReady tasks current cpu) = some t ∧ t.isActive = true :=
  (findNextReady_spec tasks current cpu).ready.imp_right (Option.any_eq_true ..).mp

/-- Where all active tasks belong to the processor, its choices go round among their slots;
    and every choice keeps what it promises. -/
theorem findNextReady_fair (tasks : Slot → Option Task) (cpu : Nat) :
    ((∀ i ∈ readySlots tasks, activeOn tasks cpu i = true) → 2 ≤ (readySlots tasks).card →
      ∀ i ∈ readySlots tasks, ∀ k, Set.BijOn (fun n => (findNextReady tasks · cpu)^[k + n + 1] i)
        (Finset.range (readySlots tasks).card) (readySlots tasks)) ∧
    ∀ current, NextReady tasks current cpu (findNextReady tasks current cpu) := by
  refine ⟨fun own two i mem k => round (fun current _ => ?_) mem k, fun _ => findNextReady_spec ..⟩
  exact (findNextReady_spec tasks current cpu).follows own (Finset.exists_mem_ne two current)

/-- The two tasks beside the idle one take turns. -/
theorem findNextReady_fair_pair :
    readySlots Scheduler.pair.tasks = {1, 2} ∧
    Set.BijOn (fun n => (findNextReady Scheduler.pair.tasks · 0)^[0 + n + 1] 1)
      (Finset.range (readySlots Scheduler.pair.tasks).card) (readySlots Scheduler.pair.tasks) :=
  ⟨by decide +kernel, (findNextReady_fair Scheduler.pair.tasks 0).1 (by decide +kernel) (by decide +kernel) 1
    (by decide +kernel) 0⟩

end Zenus.Sched
