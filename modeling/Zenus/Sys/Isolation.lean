import Zenus.Fs.Tmpfs
import Zenus.Sys.Effects

/-! # Isolation of descriptors

All tasks share one table of descriptors.  An operation of one task should leave the
entries of the others alone, and the flags of a pipe end that the task does not hold.
-/

namespace Zenus.Sys

open Fs FdTable Option PipeBuffer List Function

inductive PipeEnd where
  | read
  | write
  deriving DecidableEq, Repr

namespace PipeEnd

def other : PipeEnd → PipeEnd
  | read => write
  | write => read

/-- The end that `FdTable::close` takes a descriptor for. -/
def ofFd (fd : Nat) : PipeEnd := if fd % 2 = 0 then read else write

end PipeEnd

def PipeBuffer.isOpen (pipe : PipeBuffer) : PipeEnd → Bool
  | .read => pipe.readOpen
  | .write => pipe.writeOpen

/-- The operations on descriptors. -/
inductive FdOp where
  | open (path : Str)
  | pipe
  | close (fd : Nat)
  | read (fd len : Nat)
  | write (fd : Nat) (buf : List UInt8)
  | seek (fd offset whence : Nat)
  | dup (fd : Nat)
  | dup2 (oldfd newfd : Nat)
  | stat (fd : Nat)
  | readdir (fd : Nat)

/-- What an operation returns. -/
inductive FdReply where
  | number (n : Option Nat)
  | ends (fds : Option (Nat × Nat))
  | closed (done : Bool)
  | bytes (buf : Option (List UInt8))
  | status (stat : Option FileStat)
  | entries (list : List DirEntry)

/-- The task has a descriptor for the end of the pipe. -/
def FdTable.HoldsEnd {F : Type} (table : FdTable F) (task : Nat) (id : Fin MAX_PIPES) (e : PipeEnd) : Prop :=
  ∃ fd entry, table fd = some entry ∧ entry.taskId = task ∧ entry.pipeId = some id ∧ PipeEnd.ofFd fd = e

def FdTable.Spares {F : Type} (task : Nat) (table table' : FdTable F) : Prop :=
  ∀ fd entry, table fd = some entry → entry.taskId ≠ task → table' fd = some entry

section Operations

variable {F : Type} {σ : F → Type} [DecidableEq F] (ops : (f : F) → FileSystem (σ f))
  (w : Files F σ) (caller : Caller)

def FdOp.perform : FdOp → FdReply × Files F σ
  | .open path => (fdOpen ops w caller path).map .number id
  | .pipe => (fdPipe w caller).map .ends id
  | .close fd => (fdClose w caller fd).map .closed id
  | .read fd len => (fdRead ops w caller fd len).map .bytes id
  | .write fd buf => (fdWrite ops w caller fd buf).map .number id
  | .seek fd offset whence => (fdSeek ops w caller fd offset whence).map .number id
  | .dup fd => (fdDup w caller fd).map .number id
  | .dup2 oldfd newfd => (fdDup2 w caller oldfd newfd).map .number id
  | .stat fd => (.status (fdStat ops w caller fd), w)
  | .readdir fd => (.entries (fdReaddir ops w caller fd), w)

/-- The pipe ends that the task has no descriptor for keep their flags. -/
def EndsKept (task : Nat) (pipes' : PipeTable) : Prop :=
  ∀ id pipe e, w.pipes id = some pipe → ¬ w.fds.HoldsEnd task id e →
    ∃ pipe', pipes' id = some pipe' ∧ pipe'.isOpen e = pipe.isOpen e

/-- The step from `w` to `w'` leaves other tasks' descriptors alone, and the flags of
    pipe ends that the task does not hold. -/
structure Isolated (task : Nat) (w w' : Files F σ) : Prop where
  entries : w.fds.Spares task w'.fds
  ends : EndsKept w task w'.pipes

/-- A `dup2` onto a descriptor of another task. -/
def FdOp.Grabs : FdOp → Prop
  | .dup2 oldfd newfd =>
    (fdGet w caller oldfd).isSome ∧ ∃ entry, w.fds.get newfd = some entry ∧ entry.taskId ≠ caller.task
  | _ => False

end Operations

section Tables

variable {F : Type} {table table' table'' : FdTable F} {entry source : FdEntry F} {new : Option (FdEntry F)}
variable {i : Fin MAX_FDS}
  {task fd n : Nat}

theorem FdTable.Spares.refl (table : FdTable F) : table.Spares task table := fun _ _ found _ => found

theorem FdTable.Spares.trans (first : table.Spares task table') (second : table'.Spares task table'') :
    table.Spares task table'' :=
  fun fd entry found owner => second fd entry (first fd entry found owner) owner

theorem FdTable.put_eq_some (done : table.put entry = some (n, table')) :
    ∃ i : Fin MAX_FDS, n = i ∧ table i = none ∧ (∀ j < i, table j ≠ none) ∧
      table' = update table i (some entry) := by
  obtain ⟨i, first, same⟩ := map_eq_some_iff.mp done
  cases same
  refine ⟨i, rfl, by simpa using find?_some first, fun j before free => ?_, rfl⟩
  obtain ⟨_, k, inside, here, earlier⟩ := find?_eq_some_iff_getElem.mp first
  obtain rfl : k = i := by simpa using congrArg Fin.val here
  simpa [free] using earlier j before

theorem FdTable.put_eq_none (full : table.put entry = none) (i : Fin MAX_FDS) : table i ≠ none := by
  have none := find?_eq_none.mp (map_eq_none_iff.mp full) i (mem_finRange i)
  simpa using none

theorem FdTable.spares_fill (free : table i = none) : table.Spares task (update table i new) := by
  intro fd entry found _
  have apart : fd ≠ i := by
    rintro rfl
    rw [free] at found
    cases found
  rw [update_of_ne apart, found]

theorem FdTable.spares_put (done : table.put entry = some (n, table')) : table.Spares task table' := by
  obtain ⟨i, -, free, -, rfl⟩ := put_eq_some done
  exact spares_fill free

theorem FdTable.get_eq : table.get i = table i := by
  simp [get]

theorem FdTable.set_eq : table.set i new = update table i new := by
  simp [set]

theorem FdTable.spares_set (free : ∀ entry, table.get fd = some entry → entry.taskId = task) :
    table.Spares task (table.set fd new) := by
  intro i entry found owner
  unfold set
  split
  · next known =>
    have apart : i ≠ ⟨fd, known⟩ := by
      rintro rfl
      exact owner (free entry (by simp [get, known, found]))
    rw [update_of_ne apart, found]
  · exact found

theorem FdTable.copyEntry_eq_some (done : table.copyEntry task source = some (n, table')) :
    ∃ i : Fin MAX_FDS, ∃ entry, n = i ∧ table i = none ∧ entry.pipeId = source.pipeId ∧
      (entry.socketId = none ∨ entry.socketId = source.socketId) ∧
      table' = update table i (some entry) := by
  obtain ⟨entry, kind, socket, put⟩ : ∃ entry : FdEntry F, entry.pipeId = source.pipeId ∧
      (entry.socketId = none ∨ entry.socketId = source.socketId) ∧ table.put entry = some (n, table') := by
    unfold copyEntry at done
    split at done
    · next _ kind => exact ⟨_, kind.symm, .inl rfl, done⟩
    · next kind socket => exact ⟨_, kind.symm, .inr socket.symm, done⟩
    · next kind _ =>
      split at done
      · cases done
      · exact ⟨_, kind.symm, .inl rfl, done⟩
  obtain ⟨i, same, free, _, made⟩ := put_eq_some put
  exact ⟨i, entry, same, free, kind, socket, made⟩

theorem FdTable.dup_eq_some (done : table.dup task fd = some (n, table')) :
    ∃ source, table.get fd = some source ∧ table.copyEntry task source = some (n, table') := by
  unfold dup at done
  split at done
  · cases done
  · next source found =>
    split at done
    · cases done
    · exact ⟨source, found, done⟩

theorem FdTable.mem_ofTask {source : Fin MAX_FDS × FdEntry F} (member : source ∈ table.ofTask task) :
    table source.1 = some source.2 := by
  obtain ⟨fd, _, found⟩ := mem_filterMap.mp member
  obtain ⟨entry, kept, rfl⟩ := map_eq_some_iff.mp found
  exact (filter_eq_some_iff.mp kept).1

theorem FdTable.spares_dup (done : table.dup task fd = some (n, table')) : table.Spares task table' := by
  obtain ⟨source, _, copied⟩ := dup_eq_some done
  obtain ⟨i, entry, _, free, _, _, rfl⟩ := copyEntry_eq_some copied
  exact spares_fill free

end Tables

section Steps

variable {F : Type} {σ : F → Type} {w : Files F σ} {caller : Caller} {task : Nat}
variable {id : Fin MAX_PIPES} {pipe pipe' : PipeBuffer} {fd len pos oldfd newfd offset whence : Nat}
  {entry : FdEntry F} {buf : List UInt8}

theorem EndsKept.refl (w : Files F σ) : EndsKept w task w.pipes := fun _ pipe _ found _ => ⟨pipe, found, rfl⟩

theorem EndsKept.update (found : w.pipes id = some pipe)
    (same : ∀ e, pipe'.isOpen e = pipe.isOpen e) : EndsKept w task (update w.pipes id (some pipe')) := by
  intro other pipe₀ e there _
  by_cases this : other = id
  · subst this
    cases found.symm.trans there
    exact ⟨pipe', update_self .., same e⟩
  · exact ⟨pipe₀, by rw [update_of_ne this, there], rfl⟩

theorem EndsKept.create {pipe : Option PipeBuffer} (free : w.pipes id = none) :
    EndsKept w task (Function.update w.pipes id pipe) := by
  intro other pipe₀ e there _
  have apart : other ≠ id := by
    rintro rfl
    rw [free] at there
    cases there
  exact ⟨pipe₀, by rw [update_of_ne apart, there], rfl⟩

theorem EndsKept.close {fd : Fin MAX_FDS} (found : w.fds fd = some entry)
    (owner : entry.taskId = task) (kind : entry.pipeId = some id) :
    EndsKept w task (closePipe w.pipes fd id) := by
  intro other pipe e there away
  unfold closePipe
  by_cases this : other = id
  · subst this
    have apart : PipeEnd.ofFd fd ≠ e := fun same => away ⟨fd, entry, found, owner, kind, same⟩
    rw [update_self, there]
    refine ⟨_, rfl, ?_⟩
    cases e <;> by_cases even : fd.val % 2 = 0 <;> simp_all [PipeEnd.ofFd, isOpen]
  · exact ⟨pipe, by rw [update_of_ne this, there], rfl⟩

theorem PipeBuffer.isOpen_read {result : List UInt8 × PipeBuffer}
    (done : pipe.read len = some result) (e : PipeEnd) : result.2.isOpen e = pipe.isOpen e := by
  unfold read at done
  split at done
  · cases done
  · split at done
    · rw [← some.inj done]
    · split at done
      · cases done
      · rw [← some.inj done]
        cases e <;> rfl

theorem PipeBuffer.isOpen_write {result : Nat × PipeBuffer}
    (done : pipe.write buf = some result) (e : PipeEnd) : result.2.isOpen e = pipe.isOpen e := by
  unfold write at done
  split at done
  · cases done
  · rw [← some.inj done]
    cases e <;> rfl

theorem Isolated.refl (w : Files F σ) : Isolated task w w := ⟨.refl _, .refl _⟩

theorem Isolated.moved (found : fdGet w caller fd = some entry) :
    Isolated caller.task w { w with fds := w.fds.set fd (some { entry with offset := pos }) } := by
  obtain ⟨stored, owner⟩ := fdGet_eq found
  refine ⟨spares_set fun other here => ?_, .refl w⟩
  rw [← some.inj (stored.symm.trans here), owner]

theorem closeFd_isolated (free : ∀ entry, w.fds.get fd = some entry → entry.taskId = task) :
    Isolated task w (closeFd w fd).2 := by
  unfold closeFd
  split
  · exact .refl w
  · next entry found =>
    refine ⟨spares_set free, ?_⟩
    split
    · next id kind =>
      have owner := free entry found
      obtain ⟨i, rfl, stored⟩ := get_some found
      exact EndsKept.close stored owner kind
    · exact .refl w

theorem fdPipe_isolated : Isolated caller.task w (fdPipe w caller).2 := by
  unfold fdPipe
  split
  · exact .refl w
  · next id free =>
    split
    · exact .refl w
    · next readEnd first =>
      split
      · exact ⟨spares_put first, .refl w⟩
      · next writeEnd second =>
        refine ⟨(spares_put first).trans (spares_put second), EndsKept.create ?_⟩
        simpa using find?_some free

theorem fdDup_isolated : Isolated caller.task w (fdDup w caller fd).2 := by
  unfold fdDup
  split
  · exact .refl w
  · next copied done => exact ⟨spares_dup done, .refl w⟩

theorem fdDup2_isolated (mine : ¬ (FdOp.dup2 oldfd newfd).Grabs w caller) :
    Isolated caller.task w (fdDup2 w caller oldfd newfd).2 := by
  unfold fdDup2
  split
  · exact .refl w
  · split
    · exact .refl w
    · next old found =>
      have free : ∀ entry, w.fds.get newfd = some entry → entry.taskId = caller.task := by
        intro entry here
        by_contra other
        exact mine ⟨by simp [found], entry, here, other⟩
      have closed := closeFd_isolated free
      refine ⟨closed.entries.trans (spares_set fun entry here => ?_), closed.ends⟩
      -- the slot was just emptied
      exfalso
      unfold closeFd at here
      split at here
      · next gone => simp [gone] at here
      · unfold FdTable.set FdTable.get at here
        split at here <;> simp_all

variable {ops : (f : F) → FileSystem (σ f)}

theorem fdOpen_isolated {path : Str} : Isolated caller.task w (fdOpen ops w caller path).2 := by
  unfold fdOpen
  split
  · exact .refl w
  · dsimp only
    split
    · split
      · exact .refl w
      · next opened done => exact ⟨spares_put done, .refl w⟩
    · exact .refl w

theorem fdRead_isolated : Isolated caller.task w (fdRead ops w caller fd len).2 := by
  unfold fdRead
  split
  · exact ⟨.refl _, .refl w⟩
  · split
    · exact .refl w
    · next entry found =>
      split
      · split
        · exact .refl w
        · next result done =>
          obtain ⟨pipe, there, taken⟩ := bind_eq_some_iff.mp done
          exact ⟨.refl _, EndsKept.update there (isOpen_read taken)⟩
      · split
        · exact .refl w
        · split
          · exact .refl w
          · exact Isolated.moved found

theorem fdSeek_isolated : Isolated caller.task w (fdSeek ops w caller fd offset whence).2 := by
  unfold fdSeek
  split
  · exact .refl w
  · next entry found =>
    split
    · exact .refl w
    · split
      · exact .refl w
      · exact Isolated.moved found

theorem grabbed_not_spared (grabs : (FdOp.dup2 oldfd newfd).Grabs w caller) :
    ¬ w.fds.Spares caller.task (fdDup2 w caller oldfd newfd).2.fds := by
  obtain ⟨held, entry, there, other⟩ := grabs
  obtain ⟨old, found⟩ := isSome_iff_exists.mp held
  obtain ⟨i, rfl, stored⟩ := get_some there
  intro spared
  have kept := spared i entry stored other
  rw [fdDup2, if_neg (by omega), found] at kept
  simp only [set_eq, update_self] at kept
  exact other (some.inj kept ▸ (fdGet_eq found).2)

variable [DecidableEq F]

theorem fdWrite_isolated : Isolated caller.task w (fdWrite ops w caller fd buf).2 := by
  unfold fdWrite
  split
  · exact ⟨.refl _, .refl w⟩
  · split
    · exact .refl w
    · next entry found =>
      split
      · split
        · exact .refl w
        · next result done =>
          obtain ⟨pipe, there, taken⟩ := bind_eq_some_iff.mp done
          exact ⟨.refl _, EndsKept.update there (isOpen_write taken)⟩
      · split
        · exact .refl w
        · split
          · exact .refl w
          · refine ⟨?_, .refl w⟩
            dsimp only
            split
            · exact (Isolated.moved found).entries
            · exact .refl _

/-- An operation is isolated exactly when it is not a `dup2` onto a descriptor of
    another task. -/
theorem perform_isolated_iff (ops : (f : F) → FileSystem (σ f)) (w : Files F σ) (caller : Caller) (op : FdOp) :
    Isolated caller.task w (op.perform ops w caller).2 ↔ ¬ op.Grabs w caller := by
  cases op with
  | dup2 oldfd newfd =>
    exact ⟨fun isolated grabs => grabbed_not_spared grabs isolated.entries, fdDup2_isolated⟩
  | «open» path => exact iff_of_true fdOpen_isolated not_false
  | pipe => exact iff_of_true fdPipe_isolated not_false
  | close fd =>
    refine iff_of_true ?_ not_false
    change Isolated caller.task w (fdClose w caller fd).2
    unfold fdClose
    split
    · exact .refl w
    · next entry found =>
      refine closeFd_isolated fun other here => ?_
      rw [← some.inj ((fdGet_eq found).1.symm.trans here), (fdGet_eq found).2]
  | read fd len => exact iff_of_true fdRead_isolated not_false
  | write fd buf => exact iff_of_true fdWrite_isolated not_false
  | seek fd offset whence => exact iff_of_true fdSeek_isolated not_false
  | dup fd => exact iff_of_true fdDup_isolated not_false
  | stat fd | readdir fd => exact iff_of_true (.refl w) not_false

end Steps

section Sample

/-- Two tasks, and a machine where each has made a pipe: the first has the descriptors
    0 and 1, the second 2 and 3. -/
def firstTask : Caller := ⟨1, { uid := 1000, gid := 1000, euid := 1000, egid := 1000 }⟩
def secondTask : Caller := ⟨2, { uid := 2000, gid := 2000, euid := 2000, egid := 2000 }⟩

def tmpfsRoot : Files Unit fun _ => TmpFs where
  vfs := { mounts := .init (), root := some ⟨(), 0, false⟩, states := fun _ => TmpFs.boot.new }

def twoPipes : Files Unit fun _ => TmpFs := (fdPipe (fdPipe tmpfsRoot firstTask).2 secondTask).2

def firstPipe : Fin MAX_PIPES := ⟨0, by decide⟩

/-- The second task takes descriptor 0 of the first, and closes the read end of its pipe. -/
theorem dup2_takes_over :
    let w' := ((FdOp.dup2 2 0).perform (fun _ => TmpFs.fileSystem) twoPipes secondTask).2
    ¬ Isolated secondTask.task twoPipes w' ∧
    (twoPipes.fds.get 0).map (·.taskId) = some 1 ∧ (w'.fds.get 0).map (·.taskId) = some 2 ∧
    (twoPipes.pipes firstPipe).map (·.readOpen) = some true ∧
    (w'.pipes firstPipe).map (·.readOpen) = some false := by
  refine ⟨fun isolated => ?_, by decide +kernel⟩
  have grabs : (FdOp.dup2 2 0).Grabs twoPipes secondTask := by
    have owner : (twoPipes.fds.get 0).map (·.taskId) = some 1 := by decide +kernel
    obtain ⟨entry, there, first⟩ := map_eq_some_iff.mp owner
    refine ⟨by decide +kernel, entry, there, ?_⟩
    rw [first]
    decide
  exact grabbed_not_spared grabs isolated.entries

end Sample

end Zenus.Sys
