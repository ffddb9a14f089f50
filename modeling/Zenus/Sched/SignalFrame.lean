import Zenus.Mem.UserBytes
import Zenus.Sched.Events

/-! # Signal frames

Delivery of a signal to a handler pushes the interrupted context onto the user's
stack, and `rt_sigreturn` reads it back from there.  The frame takes 168 bytes, and
both sides look up only the first of them before they access the whole.
-/

namespace Zenus.Sched

open Lib.Word Lib.Image Mem Nat Option

def SIGHUP : Nat := 1
def SIGINT : Nat := 2
def SIGQUIT : Nat := 3
def SIGILL : Nat := 4
def SIGTRAP : Nat := 5
def SIGABRT : Nat := 6
def SIGBUS : Nat := 7
def SIGFPE : Nat := 8
def SIGUSR1 : Nat := 10
def SIGPIPE : Nat := 13
def SIGALRM : Nat := 14
def SIGTERM : Nat := 15
def SIGTSTP : Nat := 20
def SIGTTIN : Nat := 21
def SIGTTOU : Nat := 22

inductive SignalDisposition where
  | terminate
  | core
  | stop
  | continue
  | ignore
  | handler
  deriving DecidableEq, Repr

def defaultAction (sig : Nat) : SignalDisposition :=
  if sig ∈ [SIGHUP, SIGINT, SIGKILL, SIGPIPE, SIGALRM, SIGTERM] then .terminate
  else if sig ∈ [SIGQUIT, SIGILL, SIGTRAP, SIGABRT, SIGBUS, SIGFPE, SIGSEGV] then .core
  else if sig ∈ [SIGSTOP, SIGTSTP, SIGTTIN, SIGTTOU] then .stop
  else if sig = SIGCONT then .continue
  else .ignore

/-- `check_pending`: the lowest signal that is pending and not masked. -/
def checkPending (t : Task) : Option (Fin SIG_MAX × SignalDisposition) :=
  let pending := t.pendingSignals &&& bnot t.signalMask
  ((List.finRange SIG_MAX).find? fun sig : Fin SIG_MAX => pending.testBit sig).map fun sig =>
    (sig, if (t.signalActions sig).handlerFn ≠ 0 then .handler else defaultAction sig)

/-! ## The frame -/

structure SignalFrame where
  rip : Nat
  rflags : Nat
  rsp : Nat
  rax : Nat
  rbx : Nat
  rcx : Nat
  rdx : Nat
  rsi : Nat
  rdi : Nat
  rbp : Nat
  r8 : Nat
  r9 : Nat
  r10 : Nat
  r11 : Nat
  r12 : Nat
  r13 : Nat
  r14 : Nat
  r15 : Nat
  signalNumber : Nat
  handlerFn : Nat
  restorer : Nat
  deriving DecidableEq, Repr

namespace SignalFrame

/-- `size_of::<SignalFrame>()` -/
def SIZE : Nat := 168

/-- The words of the frame in the order of its fields. -/
def words (f : SignalFrame) : List Nat :=
  [f.rip, f.rflags, f.rsp, f.rax, f.rbx, f.rcx, f.rdx, f.rsi, f.rdi, f.rbp, f.r8, f.r9, f.r10, f.r11,
    f.r12, f.r13, f.r14, f.r15, f.signalNumber, f.handlerFn, f.restorer]

def bytes (f : SignalFrame) : List UInt8 := f.words.flatMap fun w => (List.range 8).map (byteOf w)

/-- The little-endian word at a position of a frame in memory. -/
def wordAt (bytes : List UInt8) (i : Nat) : Nat :=
  ((bytes.drop (8 * i)).take 8).foldr (fun b rest => b.toNat + 256 * rest) 0

def ofBytes (bytes : List UInt8) : SignalFrame :=
  let w := wordAt bytes
  ⟨w 0, w 1, w 2, w 3, w 4, w 5, w 6, w 7, w 8, w 9, w 10, w 11, w 12, w 13, w 14, w 15, w 16, w 17, w 18,
    w 19, w 20⟩

theorem length_bytes (f : SignalFrame) : f.bytes.length = SIZE := by
  simp [bytes, words, SIZE]

def context (f : SignalFrame) : SavedUserContext where
  rax := f.rax
  rbx := f.rbx
  rcx := f.rcx
  rdx := f.rdx
  rsi := f.rsi
  rdi := f.rdi
  rbp := f.rbp
  rsp := f.rsp
  r8 := f.r8
  r9 := f.r9
  r10 := f.r10
  r11 := f.r11
  r12 := f.r12
  r13 := f.r13
  r14 := f.r14
  r15 := f.r15
  rflags := f.rflags
  rip := f.rip
  valid := true

def ofTask (t : Task) (sig : Fin SIG_MAX) (rsp rip rflags : Nat) : SignalFrame where
  rip := rip
  rflags := rflags
  rsp := rsp
  rax := t.savedContext.rax
  rbx := t.savedContext.rbx
  rcx := t.savedContext.rcx
  rdx := t.savedContext.rdx
  rsi := t.savedContext.rsi
  rdi := t.savedContext.rdi
  rbp := t.savedContext.rbp
  r8 := t.savedContext.r8
  r9 := t.savedContext.r9
  r10 := t.savedContext.r10
  r11 := t.savedContext.r11
  r12 := t.savedContext.r12
  r13 := t.savedContext.r13
  r14 := t.savedContext.r14
  r15 := t.savedContext.r15
  signalNumber := sig
  handlerFn := (t.signalActions sig).handlerFn
  restorer := (t.signalActions sig).restorer

end SignalFrame

/-! ## Delivery and return -/

/-- What an operation on user memory comes to. -/
inductive Outcome (α : Type) where
  /-- The overflow check of an arithmetic operation. -/
  | panicked
  /-- The operation gives up before it touches memory. -/
  | refused
  /-- The bytes at these addresses are accessed; without a result the access faults. -/
  | accessed (addresses : List Nat) (result : Option α)

namespace Outcome

variable {α β : Type}

def map (f : α → β) : Outcome α → Outcome β
  | panicked => panicked
  | refused => refused
  | accessed addresses result => accessed addresses (result.map f)

def result : Outcome α → Option α
  | accessed _ result => result
  | _ => none

/-- Every byte that is accessed is in a user page of the current address space, and the
    operation is refused otherwise. -/
def Confined (m : Machine) : Outcome α → Prop
  | panicked => False
  | refused => True
  | accessed addresses _ => ∀ a ∈ addresses, m.userByte a = true

theorem confined_map (m : Machine) (f : α → β) (o : Outcome α) : (o.map f).Confined m ↔ o.Confined m := by
  cases o <;> rfl

end Outcome

/-- Where the frame goes: below the user's stack pointer, aligned to 16 bytes. -/
def frameRsp (userRsp : Nat) : Nat := (userRsp - SignalFrame.SIZE) &&& bnot 0xF

/-- `setup_signal_frame`: the new stack pointer, the task with the signal cleared, and the
    memory with the frame. -/
def setupSignalFrame (m : Machine) (t : Task) (sig : Fin SIG_MAX) (userRsp userRip userRflags : Nat) :
    Outcome (Nat × Task × Machine) :=
  if (t.signalActions sig).handlerFn = 0 then .refused
  else if userRsp < SignalFrame.SIZE then .panicked
  else if (m.virtToPhysRaw m.cr3 (frameRsp userRsp)).isNone then .refused
  else
    let frame := (SignalFrame.ofTask t sig userRsp userRip userRflags).bytes
    .accessed (span (frameRsp userRsp) frame.length)
      ((m.store (frameRsp userRsp) frame).map fun m => (frameRsp userRsp, t.clearSignal sig, m))

/-- `restore_signal_frame`: the stack pointer and the context of the frame. -/
def restoreSignalFrame (m : Machine) (userRsp : Nat) : Outcome (Nat × SavedUserContext) :=
  if (m.virtToPhysRaw m.cr3 userRsp).isNone then .refused
  else
    .accessed (span userRsp SignalFrame.SIZE)
      ((m.load userRsp SignalFrame.SIZE).map fun bytes =>
        ((SignalFrame.ofBytes bytes).rsp, (SignalFrame.ofBytes bytes).context))

namespace Scheduler

/-- `check_signal_for_sysret`: what is put in place of the stack pointer, the return address
    and the flags. -/
def checkSignalForSysret (s : Scheduler) (m : Machine) (cpu userRsp userRip userRflags : Nat) :
    Outcome ((Nat × Nat × Nat) × Scheduler × Machine) :=
  match s.getTask (s.currentTaskId cpu) with
  | none => .refused
  | some t =>
    match checkPending t with
    | none => .refused
    | some (sig, _) =>
      (setupSignalFrame m t sig userRsp userRip userRflags).map fun (rsp, t', m) =>
        ((rsp, (t.signalActions sig).handlerFn, userRflags &&& bnot 0x100),
          s.changeTask (s.currentTaskId cpu) fun _ => t', m)

/-- `rt_sigreturn_restore`; without a task the answer is dropped after the frame was read. -/
def rtSigreturnRestore (s : Scheduler) (m : Machine) (cpu userRsp : Nat) :
    Outcome (Option (Nat × Nat × Nat) × Scheduler) :=
  (restoreSignalFrame m userRsp).map fun (rsp, context) =>
    match s.getTask (s.currentTaskId cpu) with
    | none => (none, s)
    | some _ =>
      (some (rsp, context.rip, context.rflags),
        s.changeTask (s.currentTaskId cpu) fun t => { t with savedContext := context })

end Scheduler

/-! ## Confinement -/

/-- The first and the last byte of a frame are in user pages. -/
def endsInUser (m : Machine) (rsp : Nat) : Bool :=
  m.userByte rsp && m.userByte (rsp + (SignalFrame.SIZE - 1))

def deliverable (m : Machine) (t : Task) (sig : Fin SIG_MAX) (userRsp : Nat) : Bool :=
  (t.signalActions sig).handlerFn == 0 ||
    decide (SignalFrame.SIZE ≤ userRsp) &&
      ((m.virtToPhysRaw m.cr3 (frameRsp userRsp)).isNone || endsInUser m (frameRsp userRsp))

def returnable (m : Machine) (userRsp : Nat) : Bool :=
  (m.virtToPhysRaw m.cr3 userRsp).isNone || endsInUser m userRsp

variable {m : Machine} {t : Task} {sig : Fin SIG_MAX} {userRsp userRip userRflags rsp : Nat}

theorem frameRsp_lt (word : userRsp < WORD) : frameRsp userRsp < WORD :=
  lt_of_le_of_lt and_le_left (lt_of_le_of_lt (sub_le ..) word)

theorem frame_confined_iff (word : rsp < WORD) :
    (∀ a ∈ span rsp SignalFrame.SIZE, m.userByte a = true) ↔ endsInUser m rsp = true :=
  Machine.userBytes_iff (by decide) (by decide) word

theorem setup_confined_iff (word : userRsp < WORD) :
    (setupSignalFrame m t sig userRsp userRip userRflags).Confined m ↔
      deliverable m t sig userRsp = true := by
  unfold setupSignalFrame deliverable
  by_cases handler : (t.signalActions sig).handlerFn = 0
  · simp [handler, Outcome.Confined]
  by_cases room : userRsp < SignalFrame.SIZE
  · simp [handler, room, Outcome.Confined]
  cases here : m.virtToPhysRaw m.cr3 (frameRsp userRsp) with
  | none => simp [handler, room, Outcome.Confined, Nat.le_of_not_lt room]
  | some phys =>
    simp [handler, room, Outcome.Confined, Nat.le_of_not_lt room, SignalFrame.length_bytes,
      frame_confined_iff (frameRsp_lt word)]

theorem restore_confined_iff (word : userRsp < WORD) :
    (restoreSignalFrame m userRsp).Confined m ↔ returnable m userRsp = true := by
  unfold restoreSignalFrame returnable
  cases here : m.virtToPhysRaw m.cr3 userRsp with
  | none => simp [Outcome.Confined]
  | some phys => simp [Outcome.Confined, frame_confined_iff word]

namespace Scheduler

variable {s : Scheduler} {cpu : Nat}

theorem sysret_confined_iff (word : userRsp < WORD) :
    (s.checkSignalForSysret m cpu userRsp userRip userRflags).Confined m ↔
      ∀ t, s.getTask (s.currentTaskId cpu) = some t → ∀ sig action, checkPending t = some (sig, action) →
        deliverable m t sig userRsp = true := by
  unfold checkSignalForSysret
  cases s.getTask (s.currentTaskId cpu) with
  | none => simp [Outcome.Confined]
  | some t =>
    cases pending : checkPending t with
    | none => simp [Outcome.Confined, pending]
    | some found =>
      obtain ⟨sig, action⟩ := found
      simp [Outcome.confined_map, setup_confined_iff word, pending]

theorem sigreturn_confined_iff (word : userRsp < WORD) :
    (s.rtSigreturnRestore m cpu userRsp).Confined m ↔ returnable m userRsp = true := by
  rw [rtSigreturnRestore, Outcome.confined_map, restore_confined_iff word]

end Scheduler

/-- Deliveries and returns stay in user pages exactly if the first byte of the frame is
    unmapped or its first and last byte are in user pages. -/
theorem signal_frames_confined_iff (m : Machine) {userRsp : Nat} (word : userRsp < WORD) :
    (∀ t sig userRip userRflags, (setupSignalFrame m t sig userRsp userRip userRflags).Confined m ↔
      deliverable m t sig userRsp = true) ∧
    ((restoreSignalFrame m userRsp).Confined m ↔ returnable m userRsp = true) ∧
    ∀ (s : Scheduler) cpu,
      (∀ userRip userRflags, (s.checkSignalForSysret m cpu userRsp userRip userRflags).Confined m ↔
        ∀ t, s.getTask (s.currentTaskId cpu) = some t → ∀ sig action,
          checkPending t = some (sig, action) → deliverable m t sig userRsp = true) ∧
      ((s.rtSigreturnRestore m cpu userRsp).Confined m ↔ returnable m userRsp = true) :=
  ⟨fun _ _ _ _ => setup_confined_iff word, restore_confined_iff word, fun _ _ =>
    ⟨fun _ _ => Scheduler.sysret_confined_iff word, Scheduler.sigreturn_confined_iff word⟩⟩

/-- A user page at 0x1000 and a supervisor page at 0x2000; the upper half shows both to the
    kernel only. -/
def stackMachine : Machine :=
  { Machine.forkMachine 0 0 with
    mem := fun f i =>
      if f = 0x1000 then if i = 0 then 0x2007 else if i = 511 then 0x2003 else 0
      else if f = 0x2000 then if i = 0 then 0x3007 else 0
      else if f = 0x3000 then if i = 0 then 0x4007 else 0
      else if f = 0x4000 then if i = 1 then 0x5007 else if i = 2 then 0x6003 else 0
      else 0 }

def usr1 : Fin SIG_MAX := ⟨SIGUSR1, by decide⟩

/-- A task that handles `SIGUSR1`. -/
def handling : Task :=
  { Task.new 1 0 (Fs.str "task") with
    signalActions := fun sig => if sig = usr1 then ⟨0x401000, 0, 0x402000, (0, 0)⟩ else .new
    savedContext := { r10 := 0x4141414141414141 } }

/-- A stack that ends at the end of its page holds the frame. -/
theorem signal_frames_confined_stack :
    0x2000 < WORD ∧ (setupSignalFrame stackMachine handling usr1 0x2000 0x400000 0x202).Confined stackMachine ∧
      (setupSignalFrame stackMachine handling usr1 0x2000 0x400000 0x202).result.map (·.1) = some 0x1F50 := by
  have word : 0x2000 < WORD := by decide
  refine ⟨word, ?_, by decide +kernel⟩
  exact ((signal_frames_confined_iff stackMachine word).1 _ _ _ _).mpr (by decide +kernel)

/-- With the stack pointer 80 bytes above the user page the frame's upper part, here the
    register `r10`, is written to the supervisor page behind it; a return with a kernel
    address reads kernel memory, and one near the end of a page faults in the kernel. -/
theorem signal_frame_in_supervisor_page :
    ¬ (setupSignalFrame stackMachine handling usr1 0x2050 0x400000 0x202).Confined stackMachine ∧
      ((setupSignalFrame stackMachine handling usr1 0x2050 0x400000 0x202).result.map
        fun (rsp, _, m) => (rsp, m.mem 0x6000 0)) = some (0x1FA0, 0x4141414141414141) ∧
      ¬ (restoreSignalFrame stackMachine 0xFFFFFF8000001000).Confined stackMachine ∧
      (restoreSignalFrame stackMachine 0xFFFFFF8000001000).result.isSome = true ∧
      ¬ (restoreSignalFrame stackMachine 0x2F80).Confined stackMachine ∧
      (restoreSignalFrame stackMachine 0x2F80).result = none := by
  rw [setup_confined_iff (by decide), restore_confined_iff (by decide), restore_confined_iff (by decide)]
  exact ⟨by decide +kernel, by decide +kernel, by decide +kernel, by decide +kernel, by decide +kernel,
    by decide +kernel⟩

/-! ## Which signal is delivered -/

/-- A signal is pending and not masked. -/
def Task.waits (t : Task) (sig : Fin SIG_MAX) : Bool := (t.pendingSignals &&& bnot t.signalMask).testBit sig

/-- The frame fits below the stack pointer, on pages that can be written. -/
structure StackMapped (m : Machine) (userRsp : Nat) : Prop where
  room : SignalFrame.SIZE ≤ userRsp
  first : m.virtToPhysRaw m.cr3 (frameRsp userRsp) ≠ none
  pages : ∀ a ∈ span (frameRsp userRsp) SignalFrame.SIZE,
    (m.permissions m.cr3 a).any Machine.Perms.writable = true ∧ m.translate a ≠ none

theorem checkPending_iff : (∃ action, checkPending t = some (sig, action)) ↔
    t.waits sig ∧ ∀ lower < sig, ¬ t.waits lower := by
  have found : ((List.finRange SIG_MAX).find? t.waits) = some sig ↔
      t.waits sig ∧ ∀ lower < sig, ¬ t.waits lower := by
    rw [List.find?_eq_some_iff_getElem]
    refine and_congr_right fun waits => ⟨?_, fun lowest => ⟨sig, by simp, by simp, fun j below => ?_⟩⟩
    · rintro ⟨i, inside, here, lowest⟩ lower below
      rw [List.getElem_finRange] at here
      have := lowest lower (by rw [← here] at below; exact below)
      simpa using this
    · rw [List.getElem_finRange, Bool.not_eq_true']
      exact Bool.eq_false_of_not_eq_true (lowest ⟨j, below.trans sig.isLt⟩ below)
  rw [← found]
  constructor
  · rintro ⟨action, lowest⟩
    obtain ⟨sig', here, same⟩ := Option.map_eq_some_iff.mp lowest
    cases same
    exact here
  · intro here
    exact ⟨_, Option.map_eq_some_iff.mpr ⟨sig, here, rfl⟩⟩

theorem testBit_clearSignal (t : Task) (sig i : Fin SIG_MAX) :
    (t.clearSignal sig).pendingSignals.testBit i = (t.pendingSignals.testBit i && decide (i ≠ sig)) := by
  have bit : 1 <<< sig.val < 2 ^ 64 := by
    rw [Nat.one_shiftLeft]
    exact Nat.pow_lt_pow_right Nat.one_lt_two sig.isLt
  rw [Task.clearSignal, Nat.testBit_and, bnot, Nat.sub_sub, Nat.add_comm 1, WORD,
    Nat.testBit_two_pow_sub_succ bit, Nat.one_shiftLeft, Nat.testBit_two_pow,
    decide_eq_true (show i.val < 64 from i.isLt)]
  simp [Fin.ext_iff, eq_comm]

namespace Scheduler

variable {s : Scheduler} {cpu id : Nat}

theorem changeTask_const (found : s.getTask id = some t) (change : Task → Task) :
    s.changeTask id (fun _ => change t) = s.changeTask id change := by
  unfold getTask at found
  unfold changeTask
  cases slot : s.slotOf id with
  | none => rfl
  | some i =>
    rw [slot, bind_some] at found
    simp only [found, map_some]

/-- One check pushes the frame of the signal, goes to its handler and clears its bit alone. -/
def Delivers (s : Scheduler) (m : Machine) (cpu : Nat) (t : Task) (sig : Fin SIG_MAX)
    (userRsp userRip userRflags : Nat) : Prop :=
  ∃ m', m.store (frameRsp userRsp) (SignalFrame.ofTask t sig userRsp userRip userRflags).bytes = some m' ∧
    s.checkSignalForSysret m cpu userRsp userRip userRflags =
      .accessed (span (frameRsp userRsp) SignalFrame.SIZE)
        (some ((frameRsp userRsp, (t.signalActions sig).handlerFn, userRflags &&& bnot 0x100),
          s.signalClear (s.currentTaskId cpu) sig, m')) ∧
    ∀ i : Fin SIG_MAX, (t.clearSignal sig).pendingSignals.testBit i =
      (t.pendingSignals.testBit i && decide (i ≠ sig))

theorem delivers_lowest (current : s.getTask (s.currentTaskId cpu) = some t) (mapped : StackMapped m userRsp)
    (lowest : t.waits sig ∧ ∀ lower < sig, ¬ t.waits lower) (handled : (t.signalActions sig).handlerFn ≠ 0)
    (userRip userRflags : Nat) : s.Delivers m cpu t sig userRsp userRip userRflags := by
  have frame := SignalFrame.length_bytes (SignalFrame.ofTask t sig userRsp userRip userRflags)
  obtain ⟨m', stored⟩ : ∃ m', m.store (frameRsp userRsp)
      (SignalFrame.ofTask t sig userRsp userRip userRflags).bytes = some m' :=
    Machine.exists_store (frame ▸ mapped.pages)
  obtain ⟨action, picked⟩ := checkPending_iff.mpr lowest
  refine ⟨m', stored, ?_, testBit_clearSignal t sig⟩
  simp only [checkSignalForSysret, current, picked]
  rw [setupSignalFrame, if_neg handled, if_neg (Nat.not_lt.mpr mapped.room), if_neg (by simpa using mapped.first)]
  simp only [stored, Outcome.map, Option.map_some, SignalFrame.length_bytes]
  rw [signalClear, ← changeTask_const current (·.clearSignal sig)]

/-- A signal with a handler is delivered exactly when the lowest signal that waits has one. -/
theorem sysret_delivers_iff (current : s.getTask (s.currentTaskId cpu) = some t) (mapped : StackMapped m userRsp)
    (userRip userRflags : Nat) :
    (∃ sig, t.waits sig ∧ (t.signalActions sig).handlerFn ≠ 0 ∧ s.Delivers m cpu t sig userRsp userRip userRflags) ↔
      ∃ sig, (t.waits sig ∧ ∀ lower < sig, ¬ t.waits lower) ∧ (t.signalActions sig).handlerFn ≠ 0 := by
  constructor
  · rintro ⟨sig, -, -, m', -, delivered, -⟩
    simp only [checkSignalForSysret, current] at delivered
    split at delivered
    · cases delivered
    · next lowest action picked =>
      refine ⟨lowest, checkPending_iff.mp ⟨action, picked⟩, fun bare => ?_⟩
      -- without a handler the frame is refused, and no other signal is tried
      rw [setupSignalFrame, if_pos bare] at delivered
      cases delivered
  · rintro ⟨sig, lowest, handled⟩
    exact ⟨sig, lowest.1, handled, delivers_lowest current mapped lowest handled userRip userRflags⟩

end Scheduler

/-- The task with these signals pending. -/
def waiting (pending : Nat) : Task := { handling with pendingSignals := pending, state := .running }

/-- The task runs. -/
def served (pending : Nat) : Scheduler := Scheduler.ofTasks [.new 0 0 [], waiting pending] 1

theorem sysret_delivers_served : ∃ sig, (waiting 0xC00).waits sig ∧ ((waiting 0xC00).signalActions sig).handlerFn ≠ 0 ∧
    (served 0xC00).Delivers stackMachine 0 (waiting 0xC00) sig 0x2000 0x400000 0x202 := by
  have mapped : StackMapped stackMachine 0x2000 := ⟨by decide, by decide +kernel, by decide +kernel⟩
  have current : (served 0xC00).getTask ((served 0xC00).currentTaskId 0) = some (waiting 0xC00) := by rfl
  exact (Scheduler.sysret_delivers_iff current mapped 0x400000 0x202).mpr ⟨usr1, by decide +kernel, by decide +kernel⟩

/-- With `SIGHUP` pending, for which there is no handler, `SIGUSR1` is not delivered. -/
theorem sysret_starved :
    (((served 0x402).getTask ((served 0x402).currentTaskId 0)).any fun t =>
      t.waits usr1 && (t.signalActions usr1).handlerFn != 0) ∧
    ((served 0x402).checkSignalForSysret stackMachine 0 0x2000 0x400000 0x202).result.isNone ∧
    ((served 0x400).checkSignalForSysret stackMachine 0 0x2000 0x400000 0x202).result.isSome := by
  decide +kernel

end Zenus.Sched
