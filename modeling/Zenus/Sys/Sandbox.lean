import Zenus.Mem.UserBytes
import Zenus.Sys.Fork

/-! # Capabilities, `no_new_privs` and seccomp

The dispatcher of the system calls with its filter, `prctl`, and what a task and its
descendants keep of their restrictions.  Handlers other than those of `prctl`, `fork`
and `clone` act on the task table only through the events of the scheduler, which a
run has as steps of their own.
-/

namespace Zenus.Sched

open Lib.Word Lib.Run Function Option Bool
open Mem (USER_SPACE_LIMIT)

def SYSCALLS : Nat := 256
def SYS_CLONE : Nat := 56
def SYS_FORK : Nat := 57
def SYS_PRCTL : Nat := 244

def PR_SET_PDEATHSIG : Nat := 1
def PR_GET_PDEATHSIG : Nat := 2
def PR_SET_KEEPCAPS : Nat := 8
def PR_GET_KEEPCAPS : Nat := 9
def PR_SET_NAME : Nat := 15
def PR_GET_NAME : Nat := 16
def PR_SET_SECCOMP : Nat := 22
def PR_CAPBSET_READ : Nat := 23
def PR_CAPBSET_DROP : Nat := 24
def PR_SET_NO_NEW_PRIVS : Nat := 38
def PR_GET_NO_NEW_PRIVS : Nat := 39

def SECCOMP_SET_MODE_FILTER : Nat := 1
def SECCOMP_RET_ERRNO : Nat := 0x50000

def validateUserRange (ptr len : Nat) : Bool :=
  if ptr = 0 ∨ ptr < 0x1000 then false
  else
    match checkedAdd ptr len with
    | none => false
    | some last => decide (last ≤ USER_SPACE_LIMIT)

inductive PrctlSupport where
  | name
  | implemented
  | noOp
  | unsupported

def prctlSupport (option : Nat) : PrctlSupport :=
  if option = PR_SET_NAME ∨ option = PR_GET_NAME then .name
  else if option = PR_SET_KEEPCAPS ∨ option = PR_GET_KEEPCAPS then .noOp
  else if option = PR_SET_PDEATHSIG ∨ option = PR_GET_PDEATHSIG then .unsupported
  else if option = PR_SET_SECCOMP then .implemented
  else if option = PR_SET_NO_NEW_PRIVS ∨ option = PR_GET_NO_NEW_PRIVS then .implemented
  else if option = PR_CAPBSET_READ ∨ option = PR_CAPBSET_DROP then .implemented
  else .unsupported

/-- What a system call finds in user memory, in the saved registers and in the other
    subsystems. -/
structure UserData where
  /-- The four words at the third argument of `prctl`. -/
  words : Fin 4 → Nat
  /-- The string at the second argument of `prctl`. -/
  name : Option (List UInt8)
  userRip : Nat
  childCr3 : Option Nat
  supply : Supply

/-- Does the filter of a task reject a system call? -/
def Task.denies (t : Task) (num : Nat) : Bool :=
  t.seccompMode == 1 &&
    if word : num / 64 < 4 then t.seccompAllowed ⟨num / 64, word⟩ &&& 1 <<< (num % 64) == 0 else false

namespace Scheduler

variable (s : Scheduler) (cpu : Nat)

def sysPrctl (option arg2 arg3 : Nat) (user : UserData) : Nat × Scheduler :=
  let id := s.currentTaskId cpu
  match prctlSupport option with
  | .name =>
    if option = PR_SET_NAME then
      match user.name with
      | some name => (0, s.changeTask id ({ · with name := fixedBuffer 32 name }))
      | none => (WORD - 1, s)
    else if arg2 = 0 ∨ !validateUserRange arg2 32 then (WORD - 1, s)
    else if (s.getTask id).isNone then (WORD - 1, s)
    else (0, s)
  | .noOp => (0, s)
  | .implemented =>
    if option = PR_SET_NO_NEW_PRIVS then
      (0, s.changeTask id ({ · with noNewPrivs := decide (arg2 ≠ 0) }))
    else if option = PR_GET_NO_NEW_PRIVS then
      (if ((s.getTask id).map Task.noNewPrivs).getD false then 1 else 0, s)
    else if option = PR_CAPBSET_READ then
      if CAP_COUNT ≤ arg2 then (WORD - 22, s)
      else (if (((s.getTask id).map Task.caps).getD .none).has arg2 then 1 else 0, s)
    else if option = PR_SET_SECCOMP then
      if arg2 ≠ SECCOMP_SET_MODE_FILTER then (WORD - 22, s)
      else if arg3 = 0 then (WORD - 22, s)
      else if !validateUserRange arg3 32 then (WORD - 1, s)
      else (0, s.changeTask id ({ · with seccompMode := 1, seccompAllowed := user.words }))
    else if option = PR_CAPBSET_DROP then
      if CAP_COUNT ≤ arg2 then (WORD - 22, s)
      else
        match s.getTask id with
        | none => (WORD - 1, s)
        | some t => (0, s.changeTask id ({ · with caps := t.caps.without arg2 }))
    else (WORD - 22, s)
  | .unsupported => (WORD - 22, s)

/-- The check that the dispatcher makes; `prctl` is exempt. -/
def denied (num : Nat) : Bool :=
  num != SYS_PRCTL && (s.getTask (s.currentTaskId cpu)).any (·.denies num)

def dispatched (num : Nat) : Bool := decide (num < SYSCALLS) && !s.denied cpu num

/-- The handlers of the calls that change what a task may do. -/
def handle (num arg1 arg2 arg3 : Nat) (user : UserData) : Nat × Scheduler :=
  if num = SYS_PRCTL then s.sysPrctl cpu arg1 arg2 arg3 user
  else if num = SYS_FORK then s.sysFork cpu user.childCr3 user.userRip user.supply
  else if num = SYS_CLONE then s.sysClone cpu arg1 arg2 user.userRip user.supply
  else (0, s)

/-- `syscall_dispatch6` -/
def dispatch (num arg1 arg2 arg3 : Nat) (user : UserData) : Nat × Scheduler :=
  if SYSCALLS ≤ num then (WORD - 1, s)
  else if s.denied cpu num then (SECCOMP_RET_ERRNO ||| 1, s)
  else s.handle cpu num arg1 arg2 arg3 user

end Scheduler

/-! ## Runs -/

inductive SandboxStep where
  | event (e : Event)
  | call (cpu num arg1 arg2 arg3 : Nat) (user : UserData)

/-- The table, and for each slot the numbers that the filters of its task, or of those it
    descends from, have rejected. -/
structure Sandbox where
  sched : Scheduler
  barred : Slot → Nat → Bool

namespace Sandbox

def start (s : Scheduler) : Sandbox := ⟨s, fun i num => num != SYS_PRCTL && (s.tasks i).any (·.denies num)⟩

/-- Tasks are cloned by system calls only.  What the filter in force rejects is barred
    from then on; a clone inherits what is barred to its creator, and other new tasks
    start with nothing barred. -/
def step (b : Sandbox) : SandboxStep → Option Sandbox
  | .event (.clone ..) => none
  | .event e =>
    (b.sched.step e).map fun s => ⟨s, fun i num => (b.sched.tasks i).isSome && b.barred i num⟩
  | .call cpu num arg1 arg2 arg3 user =>
    let s := (b.sched.dispatch cpu num arg1 arg2 arg3 user).2
    some ⟨s, fun i num =>
      (if (b.sched.tasks i).isSome then b.barred i num else b.barred (b.sched.current cpu) num) ||
        (num != SYS_PRCTL && (s.tasks i).any (·.denies num))⟩

/-- Every capability of the second task is one of the first, and a promise of the first is
    one of the second. -/
def Narrower (t t' : Task) : Prop :=
  (∀ cap, t'.caps.bits.testBit cap = true → t.caps.bits.testBit cap = true) ∧
    (t.noNewPrivs = true → t'.noNewPrivs = true)

/-- A step widens no task, a clone is no wider than its creator, and a call whose number is
    barred to its task does not reach its handler. -/
def Monotone (b : Sandbox) (label : SandboxStep) : Prop :=
  (∀ b', b.step label = some b' → ∀ i t t', b.sched.tasks i = some t → b'.sched.tasks i = some t' →
    Narrower t t') ∧
  match label with
  | .event _ => True
  | .call cpu num arg1 arg2 arg3 user =>
    (∀ i t t', b.sched.tasks i = none → b.sched.tasks (b.sched.current cpu) = some t →
      (b.sched.dispatch cpu num arg1 arg2 arg3 user).2.tasks i = some t' → Narrower t t') ∧
    ∀ t, b.sched.tasks (b.sched.current cpu) = some t → b.barred (b.sched.current cpu) num = true →
      b.sched.dispatched cpu num = false

/-- Everything that one filter rejects another does. -/
def tighter (old new : Task) : Bool :=
  (List.range SYSCALLS).all fun num => num == SYS_PRCTL || !old.denies num || new.denies num

/-- The condition on a `prctl` that reaches its handler. -/
def tightPrctl (t : Task) (option arg2 arg3 : Nat) (user : UserData) : Bool :=
  if option = PR_SET_NO_NEW_PRIVS then arg2 != 0 || !t.noNewPrivs
  else if option = PR_SET_SECCOMP ∧ arg2 = SECCOMP_SET_MODE_FILTER ∧ validateUserRange arg3 32 then
    tighter t { t with seccompMode := 1, seccompAllowed := user.words }
  else true

/-- The conditions under which restrictions last: a promise is not taken back, a filter is
    replaced by a tighter one only, and a task whose filter rejects a call makes no clone.
    The numbers of the tasks must not wrap. -/
def tightens (b : Sandbox) : SandboxStep → Bool
  | .event e => !e.creates || decide (b.sched.nextTaskId + 1 < WORD)
  | .call cpu num arg1 arg2 arg3 user =>
    if b.sched.dispatched cpu num = false then true
    else if num = SYS_PRCTL then
      (b.sched.getTask (b.sched.currentTaskId cpu)).all (tightPrctl · arg1 arg2 arg3 user)
    else if num = SYS_FORK ∨ num = SYS_CLONE then
      decide (b.sched.nextTaskId + 1 < WORD) &&
        (b.sched.tasks (b.sched.current cpu)).all fun t =>
          (List.range SYSCALLS).all fun num => num == SYS_PRCTL || !t.denies num
    else true

end Sandbox

/-! ## Filters -/

theorem Task.lt_of_denies {t : Task} {num : Nat} (denies : t.denies num = true) : num < SYSCALLS := by
  simp only [Task.denies, and_eq_true] at denies
  obtain ⟨-, denies⟩ := denies
  split at denies
  · next word =>
    unfold SYSCALLS
    omega
  · exact nomatch denies

theorem Task.denies_congr {t t' : Task} (mode : t'.seccompMode = t.seccompMode)
    (allowed : t'.seccompAllowed = t.seccompAllowed) (num : Nat) : t'.denies num = t.denies num := by
  rw [Task.denies, Task.denies, mode, allowed]

theorem Task.Kept.denies {t t' : Task} (kept : t.Kept t') (num : Nat) : t'.denies num = t.denies num :=
  Task.denies_congr kept.seccompMode kept.seccompAllowed num

namespace Sandbox

theorem Narrower.refl (t : Task) : Narrower t t := ⟨fun _ => id, id⟩

theorem narrower_of_kept {t t' : Task} (kept : t.Kept t') : Narrower t t' := by
  rw [Narrower, kept.caps, kept.noNewPrivs]
  exact Narrower.refl t

theorem testBit_without {caps : CapSet} {cap bit : Nat}
    (held : (caps.without cap).bits.testBit bit = true) : caps.bits.testBit bit = true := by
  unfold CapSet.without at held
  split at held
  · rw [Nat.testBit_and, and_eq_true] at held
    exact held.1
  · exact held

theorem denies_of_tighter {old new : Task} {num : Nat} (tight : tighter old new = true)
    (other : num ≠ SYS_PRCTL) (denies : old.denies num = true) : new.denies num = true := by
  have each := List.all_eq_true.mp tight num (List.mem_range.mpr (Task.lt_of_denies denies))
  simpa [other, denies] using each

end Sandbox

/-! ## `prctl` -/

namespace Scheduler

variable {s : Scheduler} {cpu option arg2 arg3 : Nat} {user : UserData}

theorem sysPrctl_cases (s : Scheduler) (cpu option arg2 arg3 : Nat) (user : UserData) :
    (s.sysPrctl cpu option arg2 arg3 user).2 = s ∨
    ∃ change : Task → Task,
      (s.sysPrctl cpu option arg2 arg3 user).2 = s.changeTask (s.currentTaskId cpu) change ∧
      ((∃ name, change = ({ · with name := name })) ∨
        (option = PR_SET_NO_NEW_PRIVS ∧ change = ({ · with noNewPrivs := decide (arg2 ≠ 0) })) ∨
        (option = PR_SET_SECCOMP ∧ arg2 = SECCOMP_SET_MODE_FILTER ∧ validateUserRange arg3 32 = true ∧
          change = ({ · with seccompMode := 1, seccompAllowed := user.words })) ∨
        ∃ t, s.getTask (s.currentTaskId cpu) = some t ∧
          change = ({ · with caps := t.caps.without arg2 })) := by
  dsimp only [sysPrctl]
  split
  · split
    · split
      · exact .inr ⟨_, rfl, .inl ⟨_, rfl⟩⟩
      · exact .inl rfl
    · split_ifs <;> exact .inl rfl
  · exact .inl rfl
  · split
    · next set => exact .inr ⟨_, rfl, .inr (.inl ⟨set, rfl⟩)⟩
    · split
      · exact .inl rfl
      · split
        · split_ifs <;> exact .inl rfl
        · split
          · next set =>
            split
            · exact .inl rfl
            · next mode =>
              split
              · exact .inl rfl
              · split
                · exact .inl rfl
                · next range =>
                  refine .inr ⟨_, rfl, .inr (.inr (.inl ⟨set, not_not.mp mode, ?_, rfl⟩))⟩
                  simpa using range
          · split
            · split
              · exact .inl rfl
              · split
                · exact .inl rfl
                · next t found => exact .inr ⟨_, rfl, .inr (.inr (.inr ⟨t, found, rfl⟩))⟩
            · exact .inl rfl
  · exact .inl rfl

theorem sysFork_step (s : Scheduler) (cpu : Nat) (childCr3 : Option Nat) (userRip : Nat) (supply : Supply) :
    (s.sysFork cpu childCr3 userRip supply).2 = s ∨ ∃ flags stackSize entry cr3 userRsp heapBrk,
        s.step (.clone cpu flags stackSize entry cr3 userRsp heapBrk supply) =
          some (s.sysFork cpu childCr3 userRip supply).2 := by
  dsimp only [sysFork]
  split
  · exact .inl rfl
  · split <;> exact .inr ⟨_, _, _, _, _, _, rfl⟩

theorem sysClone_step (s : Scheduler) (cpu flags stack userRip : Nat) (supply : Supply) :
    (s.sysClone cpu flags stack userRip supply).2 = s ∨ ∃ flags' stackSize entry cr3 userRsp heapBrk,
        s.step (.clone cpu flags' stackSize entry cr3 userRsp heapBrk supply) =
          some (s.sysClone cpu flags stack userRip supply).2 := by
  dsimp only [sysClone]
  generalize (if stack ≠ 0 then stack else s.userRsp cpu) = userRsp
  split
  · exact .inl rfl
  · split <;> exact .inr ⟨_, _, _, _, _, _, rfl⟩

theorem dispatch_cases (s : Scheduler) (cpu num arg1 arg2 arg3 : Nat) (user : UserData) :
    (s.dispatch cpu num arg1 arg2 arg3 user).2 = s ∨ (s.dispatched cpu num = true ∧ ((num = SYS_PRCTL ∧
        (s.dispatch cpu num arg1 arg2 arg3 user).2 = (s.sysPrctl cpu arg1 arg2 arg3 user).2) ∨
      (num ≠ SYS_PRCTL ∧ (num = SYS_FORK ∨ num = SYS_CLONE) ∧ ∃ flags stackSize entry cr3 userRsp heapBrk,
          s.step (.clone cpu flags stackSize entry cr3 userRsp heapBrk user.supply) =
            some (s.dispatch cpu num arg1 arg2 arg3 user).2))) := by
  unfold dispatch
  split
  · exact .inl rfl
  · next small =>
    split
    · exact .inl rfl
    · next allowed =>
      have reached : s.dispatched cpu num = true := by
        simp only [dispatched, and_eq_true, decide_eq_true_eq, not_eq_true']
        exact ⟨Nat.lt_of_not_le small, eq_false_of_not_eq_true allowed⟩
      unfold handle
      split
      · next prctl => exact .inr ⟨reached, .inl ⟨prctl, rfl⟩⟩
      · next other =>
        split
        · next fork =>
          exact (sysFork_step ..).imp_right fun made => ⟨reached, .inr ⟨other, .inl fork, made⟩⟩
        · split
          · next clone =>
            exact (sysClone_step ..).imp_right fun made => ⟨reached, .inr ⟨other, .inr clone, made⟩⟩
          · exact .inl rfl

end Scheduler

/-! ## What a step keeps -/

namespace Sandbox

open Scheduler

variable {b b' : Sandbox} {s s' : Scheduler} {user : UserData} {e : Event} {t t' : Task} {i : Slot}
  {cpu option arg2 arg3 flags stackSize entry cr3 userRsp heapBrk num arg1 : Nat} {label : SandboxStep}

/-- The second record is the first with no fewer restrictions. -/
structure Tightened (t t' : Task) : Prop where
  id : t'.id = t.id
  narrower : Narrower t t'
  denies : ∀ num, num ≠ SYS_PRCTL → t.denies num = true → t'.denies num = true

theorem Tightened.refl (t : Task) : Tightened t t := ⟨rfl, .refl t, fun _ _ => (fun denied => denied)⟩

theorem prctl_tightens
    (ok : (s.getTask (s.currentTaskId cpu)).all (tightPrctl · option arg2 arg3 user) = true)
    (here : s.tasks i = some t)
    (after : (s.sysPrctl cpu option arg2 arg3 user).2.tasks i = some t') : Tightened t t' := by
  obtain same | ⟨change, changed, kind⟩ := s.sysPrctl_cases cpu option arg2 arg3 user
  · rw [same] at after
    cases here.symm.trans after
    exact .refl t
  · rw [changed, tasks_changeTask, here] at after
    split at after
    · next found =>
      cases after
      have self : s.getTask (s.currentTaskId cpu) = some t := by
        rw [getTask, found]
        exact here
      rw [self, all_some] at ok
      obtain ⟨name, rfl⟩ | ⟨set, rfl⟩ | ⟨set, mode, range, rfl⟩ | ⟨u, caller, rfl⟩ := kind
      · exact ⟨rfl, .refl t, fun _ _ => (fun denied => denied)⟩
      · refine ⟨rfl, ⟨fun _ => (fun denied => denied), fun promised => ?_⟩, fun _ _ => (fun denied => denied)⟩
        rw [tightPrctl, if_pos set, promised] at ok
        simpa using ok
      · refine ⟨rfl, .refl t, fun num other denied => ?_⟩
        have apart : option ≠ PR_SET_NO_NEW_PRIVS := by rw [set]; decide
        rw [tightPrctl, if_neg apart, if_pos ⟨set, mode, range⟩] at ok
        exact denies_of_tighter ok other denied
      · cases self.symm.trans caller
        exact ⟨rfl, ⟨fun _ => testBit_without, (fun denied => denied)⟩, fun _ _ => (fun denied => denied)⟩
    · cases after
      exact .refl t

theorem clone_narrower
    {supply : Supply} (made : s.step (.clone cpu flags stackSize entry cr3 userRsp heapBrk supply) = some s') :
    s'.tasks = s.tasks ∨ ∃ parent j child, s.tasks (s.current cpu) = some parent ∧ s.tasks j = none ∧
      s'.tasks = update s.tasks j (some child) ∧ Narrower parent child ∧
      ∀ num, child.denies num = false := by
  obtain same | ⟨j, task, new, free, put⟩ := tasks_create made rfl
  · exact .inl same
  · obtain ⟨parent, ns, here, rfl⟩ := newTask_clone new
    exact .inr ⟨parent, j, _, here, free, put, .refl parent, fun _ => rfl⟩

/-- The records of a table, and what is barred to the tasks, fit. -/
structure Guarded (b : Sandbox) : Prop where
  numbered : b.sched.Numbered
  inForce : ∀ i t num, b.sched.tasks i = some t → b.barred i num = true →
    num ≠ SYS_PRCTL ∧ t.denies num = true

theorem guarded_start (numbered : s.Numbered) : Guarded (start s) := by
  refine ⟨numbered, fun i t num here barred => ?_⟩
  simpa [start, show s.tasks i = some t from here] using barred

/-- After a call, every task is one from before with no fewer restrictions, or a clone of
    the caller, which had no filter. -/
theorem call_effect (numbered : b.sched.Numbered)
    (ok : b.tightens (.call cpu num arg1 arg2 arg3 user) = true) :
    (b.sched.dispatch cpu num arg1 arg2 arg3 user).2.Numbered ∧
    ∀ i t', (b.sched.dispatch cpu num arg1 arg2 arg3 user).2.tasks i = some t' →
      (∃ t, b.sched.tasks i = some t ∧ Tightened t t') ∨
      (b.sched.tasks i = none ∧ ∃ parent, b.sched.tasks (b.sched.current cpu) = some parent ∧
        Narrower parent t' ∧ (∀ num, t'.denies num = false) ∧
        ∀ num, num ≠ SYS_PRCTL → parent.denies num = false) := by
  obtain same | ⟨reached, ⟨rfl, same⟩ | ⟨other, which, flags, stackSize, entry, cr3, userRsp, heapBrk, made⟩⟩ :=
    b.sched.dispatch_cases cpu num arg1 arg2 arg3 user
  · rw [same]
    exact ⟨numbered, fun i t' here => .inl ⟨t', here, .refl t'⟩⟩
  · rw [tightens, if_neg (by rw [reached]; decide), if_pos rfl] at ok
    rw [same]
    have effect : ∀ i t', (b.sched.sysPrctl cpu arg1 arg2 arg3 user).2.tasks i = some t' →
        ∃ t, b.sched.tasks i = some t ∧ Tightened t t' := by
      intro i t' after
      cases here : b.sched.tasks i with
      | some t => exact ⟨t, rfl, prctl_tightens ok here after⟩
      | none =>
        obtain unchanged | ⟨change, changed, -⟩ := b.sched.sysPrctl_cases cpu arg1 arg2 arg3 user
        · rw [unchanged, here] at after
          exact nomatch after
        · rw [changed, tasks_changeTask, here, map_none, ite_self] at after
          exact nomatch after
    refine ⟨numbered.follow ?_ fun i t' after => ?_, fun i t' after => .inl (effect i t' after)⟩
    · obtain unchanged | ⟨change, changed, -⟩ := b.sched.sysPrctl_cases cpu arg1 arg2 arg3 user
      · rw [unchanged]
      · obtain ⟨tasks, frame⟩ := b.sched.changeTask_frame (b.sched.currentTaskId cpu) change
        rw [changed, frame]
    · obtain ⟨t, before, tightened⟩ := effect i t' after
      exact ⟨t, before, tightened.id⟩
  · rw [tightens, if_neg (by rw [reached]; decide), if_neg other, if_pos which] at ok
    obtain ⟨room, unfiltered⟩ := and_eq_true_iff.mp ok
    refine ⟨numbered.step made fun _ => of_decide_eq_true room, fun i t' after => ?_⟩
    obtain same | ⟨parent, j, child, caller, free, put, narrower, none_denied⟩ := clone_narrower made
    · rw [same] at after
      exact .inl ⟨t', after, .refl t'⟩
    · rw [put] at after
      rcases eq_or_ne i j with rfl | apart
      · rw [update_self] at after
        cases after
        refine .inr ⟨free, parent, caller, narrower, none_denied, fun num other => ?_⟩
        rw [caller, all_some, List.all_eq_true] at unfiltered
        by_contra denies
        rw [not_eq_false] at denies
        have each := unfiltered num (List.mem_range.mpr (Task.lt_of_denies denies))
        simp [other, denies] at each
      · rw [update_of_ne apart] at after
        exact .inl ⟨t', after, .refl t'⟩

theorem step_event (made : b.step (.event e) = some b') :
    ∃ s, b.sched.step e = some s ∧ b' = ⟨s, fun i num => (b.sched.tasks i).isSome && b.barred i num⟩ := by
  have moved : (b.sched.step e).map (fun s =>
      (⟨s, fun i num => (b.sched.tasks i).isSome && b.barred i num⟩ : Sandbox)) = some b' := by
    cases e with
    | clone => exact nomatch made
    | _ => exact made
  obtain ⟨s, stepped, rfl⟩ := map_eq_some_iff.mp moved
  exact ⟨s, stepped, rfl⟩

theorem event_kept (made : s.step e = some s')
    (here : s.tasks i = some t) (after : s'.tasks i = some t') : t.Kept t' := by
  have turns := step_slot made here
  rw [nextState, after] at turns
  split at turns
  · cases turns
  · obtain ⟨u, same, -, kept⟩ := turns
    cases same
    exact kept

theorem Guarded.event (guarded : Guarded b) (ok : b.tightens (.event e) = true)
    (made : b.step (.event e) = some b') : Guarded b' := by
  obtain ⟨s, stepped, rfl⟩ := step_event made
  have room : e.creates → b.sched.nextTaskId + 1 < WORD := by
    intro creates
    simpa [tightens, creates] using ok
  refine ⟨guarded.numbered.step stepped room, fun i t' num after barred => ?_⟩
  obtain ⟨held, barred⟩ := and_eq_true_iff.mp barred
  obtain ⟨t, here⟩ := isSome_iff_exists.mp held
  obtain ⟨other, denies⟩ := guarded.inForce i t num here barred
  exact ⟨other, ((event_kept stepped here after).denies num).trans denies⟩

theorem Guarded.call (guarded : Guarded b) (ok : b.tightens (.call cpu num arg1 arg2 arg3 user) = true)
    (made : b.step (.call cpu num arg1 arg2 arg3 user) = some b') : Guarded b' := by
  obtain ⟨numbered, effect⟩ := call_effect guarded.numbered ok
  cases made
  refine ⟨numbered, fun i t' n after barred => ?_⟩
  rw [or_eq_true] at barred
  obtain before | now := barred
  · obtain ⟨t, here, tightened⟩ | ⟨free, parent, caller, -, -, unfiltered⟩ := effect i t' after
    · rw [here, isSome_some, if_pos rfl] at before
      obtain ⟨other, denies⟩ := guarded.inForce i t n here before
      exact ⟨other, tightened.denies n other denies⟩
    · rw [free, isSome_none, if_neg Bool.false_ne_true] at before
      obtain ⟨other, denies⟩ := guarded.inForce _ parent n caller before
      exact nomatch denies.symm.trans (unfiltered n other)
  · rw [and_eq_true, bne_iff_ne] at now
    obtain ⟨other, denies⟩ := now
    refine ⟨other, ?_⟩
    rw [show (b.sched.dispatch cpu num arg1 arg2 arg3 user).2.tasks i = some t' from after] at denies
    exact denies

theorem Guarded.step (b : Sandbox) (label : SandboxStep) (b' : Sandbox) (guarded : Guarded b)
    (ok : b.tightens label = true) (made : b.step label = some b') : Guarded b' := by
  cases label with
  | event e => exact guarded.event ok made
  | call => exact guarded.call ok made

theorem Guarded.monotone (guarded : Guarded b) (ok : b.tightens label = true) : b.Monotone label := by
  cases label with
  | event e =>
    refine ⟨fun b' made i t t' here after => ?_, trivial⟩
    obtain ⟨s, stepped, rfl⟩ := step_event made
    exact narrower_of_kept (event_kept stepped here after)
  | call cpu num arg1 arg2 arg3 user =>
    obtain ⟨-, effect⟩ := call_effect guarded.numbered ok
    refine ⟨fun b' made i t t' here after => ?_, fun i t t' free caller after => ?_,
      fun t caller barred => ?_⟩
    · cases made
      obtain ⟨u, before, tightened⟩ | ⟨free, -⟩ := effect i t' after
      · cases here.symm.trans before
        exact tightened.narrower
      · exact nomatch here.symm.trans free
    · obtain ⟨u, before, -⟩ | ⟨-, parent, caller', narrower, -⟩ := effect i t' after
      · exact nomatch free.symm.trans before
      · cases caller.symm.trans caller'
        exact narrower
    · obtain ⟨other, denies⟩ := guarded.inForce _ t num caller barred
      simp [dispatched, denied, guarded.numbered.getTask_current caller, other, denies]

/-- In a run whose steps take no restriction back, capabilities, promises and filters hold
    for a task and for the clones it makes. -/
theorem sandbox_monotone {s : Scheduler} (numbered : s.Numbered) (labels : List SandboxStep)
    (ok : Along step (fun b label => b.tightens label = true) labels (start s)) :
    Along step Monotone labels (start s) :=
  Along.under Guarded Guarded.step (fun _ _ guarded ok => guarded.monotone ok) (guarded_start numbered) ok

/-- The last clause of `Monotone`, as a check. -/
def turnsAway (b : Sandbox) : SandboxStep → Bool
  | .event _ => true
  | .call cpu num _ _ _ _ =>
    (b.sched.tasks (b.sched.current cpu)).isNone || !b.barred (b.sched.current cpu) num ||
      !b.sched.dispatched cpu num

theorem Monotone.turnsAway (monotone : Monotone b label) : b.turnsAway label = true := by
  cases label with
  | event e => rfl
  | call cpu num arg1 arg2 arg3 user =>
    obtain ⟨-, -, rejected⟩ := monotone
    cases caller : b.sched.tasks (b.sched.current cpu) with
    | none => simp [Sandbox.turnsAway, caller]
    | some t =>
      cases barred : b.barred (b.sched.current cpu) num with
      | false => simp [Sandbox.turnsAway, barred]
      | true => simp [Sandbox.turnsAway, rejected t caller barred]

/-- A call of the task on processor 0, with a bit mask that `prctl` finds in memory. -/
def request (num arg1 arg2 : Nat) (word : Nat) : SandboxStep :=
  .call 0 num arg1 arg2 0x2000 ⟨fun _ => word, none, 0x400000, some 0x5000, forkSupply⟩

/-- The task makes a clone and the promise, drops a capability, allows itself only the
    calls 1, 65, 129 and 193, and tries another. -/
theorem sandbox_monotone_pair :
    let labels := [request SYS_FORK 0 0 0, request SYS_PRCTL PR_SET_NO_NEW_PRIVS 1 0,
      request SYS_PRCTL PR_CAPBSET_DROP CAP_KILL 0, request SYS_PRCTL PR_SET_SECCOMP 1 2, request 1 0 0 0,
      request SYS_FORK 0 0 0, .event (.yieldNow 0 0)]
    pair.Numbered ∧ Along step Monotone labels (start pair) ∧
      ((exec step labels (start pair)).map fun b => (b.barred 1 SYS_FORK, b.sched.nextTaskId)) =
        some (true, 4) := by
  have numbered : pair.Numbered := numbered_ofTasks rfl 1
  exact ⟨numbered, sandbox_monotone numbered _ (by decide +kernel), by decide +kernel⟩

/-- A filter that rejects everything is replaced by one that allows everything, the promise
    is taken back, and a clone of a task with a filter has none. -/
theorem restrictions_taken_back :
    let replaced := [request SYS_PRCTL PR_SET_SECCOMP 1 0, request 1 0 0 0,
      request SYS_PRCTL PR_SET_SECCOMP 1 (WORD - 1), request 1 0 0 0]
    let promised := [request SYS_PRCTL PR_SET_NO_NEW_PRIVS 1 0, request SYS_PRCTL PR_SET_NO_NEW_PRIVS 0 0]
    ((exec step (replaced.take 1) (start pair)).map (·.sched.dispatched 0 1)) = some false ∧
      ((exec step (replaced.take 3) (start pair)).map (·.sched.dispatched 0 1)) = some true ∧
      ¬ Along step Monotone replaced (start pair) ∧
      ((exec step promised (start pair)).bind fun b => (b.sched.tasks 1).map Task.noNewPrivs) =
        some false := by
  intro replaced promised
  refine ⟨by decide +kernel, by decide +kernel, fun along => ?_, by decide +kernel⟩
  have held : Along step (fun b label => b.turnsAway label = true) replaced (start pair) :=
    along.under (fun _ => True) (fun _ _ _ _ _ _ => trivial) (fun _ _ _ => Monotone.turnsAway) trivial
  exact absurd held (by decide +kernel)

end Sandbox

end Zenus.Sched
