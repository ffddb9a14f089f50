import Zenus.Sys.PipeEnds

/-! # What a descriptor denotes

A read or write through a descriptor should act on the object it was made for.  The
numbers 0 to 2 go to the console before the table is looked at, a duplicate of a file
starts at position 0, and a child finds the slots of its parent taken.
-/

namespace Zenus.Sys

open Fs FdTable Function

section Objects

variable {F : Type} {σ : F → Type} [DecidableEq F] (ops : (f : F) → FileSystem (σ f)) (w : Files F σ)

/-- What the object of an entry gives a reader at the position of the entry. -/
def FdEntry.bytes (entry : FdEntry F) (len : Nat) : Option (List UInt8) :=
  match entry.pipeId with
  | some id => ((w.pipes id).bind (·.read len)).map Prod.fst
  | none => entry.fs.bind fun f => (ops f).read (w.vfs.states f) entry.inode entry.offset len

/-- What it answers a writer there, with the file systems and pipes it leaves. -/
def FdEntry.stored (entry : FdEntry F) (buf : List UInt8) : Option Nat × Vfs F σ × PipeTable :=
  match entry.pipeId with
  | some id =>
    match (w.pipes id).bind (·.write buf) with
    | none => (none, w.vfs, w.pipes)
    | some result => (some result.1, w.vfs, update w.pipes id (some result.2))
  | none =>
    match entry.readOnly, entry.fs with
    | false, some f =>
      let result := (ops f).write (w.vfs.states f) entry.inode entry.offset buf
      (result.1, w.vfs.setState f result.2, w.pipes)
    | _, _ => (none, w.vfs, w.pipes)

/-- The entries stand for one object, a file at one position. -/
def FdEntry.Same {F : Type} (copy entry : FdEntry F) : Prop :=
  copy.pipeId = entry.pipeId ∧ (entry.pipeId = none →
    copy.fs = entry.fs ∧ copy.inode = entry.inode ∧ copy.offset = entry.offset)

variable (caller : Caller)

end Objects

section Calls

variable {F : Type} {σ : F → Type} {table table' : FdTable F} {w : Files F σ} {caller : Caller} {fd : Nat}
variable {entry : FdEntry F} {i : Fin MAX_FDS}

variable [DecidableEq F] {ops : (f : F) → FileSystem (σ f)}

end Calls

end Zenus.Sys
