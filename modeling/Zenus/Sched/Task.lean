import Zenus.Fs.FileSystem
import Zenus.Mem.Vma

/-! # Tasks

The record the scheduler keeps of a task, its capabilities and its signals.
-/

namespace Zenus.Sched

open Lib.Word

inductive TaskState where
  | ready
  | running
  | waiting
  | sleeping
  | terminated
  | stopped
  deriving DecidableEq, Repr

/-! ## Capabilities -/

def CAP_COUNT : Nat := 17
def CAP_KILL : Nat := 5

/-- A bit mask of capabilities. -/
structure CapSet where
  bits : Nat
  deriving DecidableEq, Repr

namespace CapSet

def all : CapSet := ⟨2 ^ CAP_COUNT - 1⟩

def none : CapSet := ⟨0⟩

def has (caps : CapSet) (cap : Nat) : Bool := decide (cap < CAP_COUNT) && caps.bits.testBit cap

def without (caps : CapSet) (cap : Nat) : CapSet :=
  if cap < CAP_COUNT then ⟨caps.bits &&& bnot (1 <<< cap)⟩ else caps

end CapSet

def mayKill (uid : Nat) (caps : CapSet) (targetUid : Nat) : Bool := targetUid == uid || caps.has CAP_KILL

/-! ## Signals -/

def SIG_MAX : Nat := 64
def SIGKILL : Nat := 9
def SIGSEGV : Nat := 11
def SIGCHLD : Nat := 17
def SIGCONT : Nat := 18
def SIGSTOP : Nat := 19

structure SignalAction where
  handlerFn : Nat
  flags : Nat
  restorer : Nat
  mask : Nat × Nat
  deriving DecidableEq, Repr

def SignalAction.new : SignalAction := ⟨0, 0, 0, (0, 0)⟩

structure SavedUserContext where
  rax : Nat := 0
  rbx : Nat := 0
  rcx : Nat := 0
  rdx : Nat := 0
  rsi : Nat := 0
  rdi : Nat := 0
  rbp : Nat := 0
  rsp : Nat := 0
  r8 : Nat := 0
  r9 : Nat := 0
  r10 : Nat := 0
  r11 : Nat := 0
  r12 : Nat := 0
  r13 : Nat := 0
  r14 : Nat := 0
  r15 : Nat := 0
  rflags : Nat := 0
  rip : Nat := 0
  valid : Bool := false
  deriving DecidableEq, Repr

/-! ## Tasks -/

structure Task where
  id : Nat
  state : TaskState
  priority : Nat
  rsp : Nat
  ticksLeft : Nat
  stackAlloc : Nat
  stackSize : Nat
  kernelRspTop : Nat
  userRsp : Nat
  cpu : Nat
  cr3 : Nat
  userCr3 : Nat
  heapBrk : Nat
  heapFloor : Nat
  uid : Nat
  gid : Nat
  euid : Nat
  egid : Nat
  noNewPrivs : Bool
  seccompMode : Nat
  /-- Bit `n % 64` of word `n / 64` set means that system call `n` is permitted. -/
  seccompAllowed : Fin 4 → Nat
  caps : CapSet
  parentPid : Nat
  exitCode : Nat
  cgroup : Nat
  utsNs : Nat
  pidNs : Nat
  mntNs : Nat
  netNs : Nat
  userNs : Nat
  ipcNs : Nat
  name : List UInt8
  pendingSignals : Nat
  signalMask : Nat
  signalActions : Fin SIG_MAX → SignalAction
  savedContext : SavedUserContext
  vma : Mem.VmaTable
  cwd : List UInt8

/-- The bytes of a fixed buffer: the text, cut to leave room for a zero, and zeros. -/
def fixedBuffer (size : Nat) (text : List UInt8) : List UInt8 :=
  let kept := text.take (size - 1)
  kept ++ List.replicate (size - kept.length) 0

namespace Task

def new (id stack : Nat) (name : List UInt8) : Task where
  id := id
  state := .ready
  priority := 128
  rsp := stack
  ticksLeft := 50
  stackAlloc := 0
  stackSize := 0
  kernelRspTop := 0
  userRsp := 0
  cpu := 0
  cr3 := 0
  userCr3 := 0
  heapBrk := 0
  heapFloor := 0
  uid := 0
  gid := 0
  euid := 0
  egid := 0
  noNewPrivs := false
  seccompMode := 0
  seccompAllowed := fun _ => 0
  caps := .all
  parentPid := 0
  exitCode := 0
  cgroup := 0
  utsNs := 0
  pidNs := 0
  mntNs := 0
  netNs := 0
  userNs := 0
  ipcNs := 0
  name := fixedBuffer 32 name
  pendingSignals := 0
  signalMask := 0
  signalActions := fun _ => .new
  savedContext := {}
  vma := .new
  cwd := fixedBuffer 256 (Fs.str "/")

def isActive (t : Task) : Bool := t.state == .ready || t.state == .running

def deliverSignal (t : Task) (sig : Nat) : Task :=
  { t with pendingSignals := t.pendingSignals ||| 1 <<< sig }

def clearSignal (t : Task) (sig : Nat) : Task :=
  { t with pendingSignals := t.pendingSignals &&& bnot (1 <<< sig) }

end Task

end Zenus.Sched
