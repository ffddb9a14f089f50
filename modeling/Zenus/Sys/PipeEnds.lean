import Zenus.Sys.Isolation

/-! # Pipe ends and their descriptors

The table does not say which end of a pipe a descriptor is for; `FdTable::close` infers
it from the parity of the number.  Beside the table a ghost records the end that each
descriptor was made for, through `pipe`, `dup`, `dup2` and `fork`.  The flags of the
pipes are compared with it.
-/

namespace Zenus.Sys

open Fs FdTable Function Lib.Run PipeEnd List
open Option hiding or_assoc

/-- The operations that make and remove descriptors of pipes. -/
inductive PipeOp where
  | pipe
  | dup (fd : Nat)
  | dup2 (oldfd newfd : Nat)
  | fork (child : Nat)
  | close (fd : Nat)
  | exit
  deriving DecidableEq, Repr

/-- The files, and the end that the descriptor in each slot was made for. -/
structure Tracked (F : Type) (σ : F → Type) where
  files : Files F σ
  ends : Nat → PipeEnd

def FdTable.Refers {F : Type} (table : FdTable F) (ends : Nat → PipeEnd) (id : Fin MAX_PIPES) (e : PipeEnd) :
    Prop :=
  ∃ fd entry, table fd = some entry ∧ entry.pipeId = some id ∧ ends fd = e

def FdTable.firstFree {F : Type} (table : FdTable F) : Option (Fin MAX_FDS) :=
  (List.finRange MAX_FDS).find? fun fd => (table fd).isNone

section Operations

variable {F : Type} {σ : F → Type} (t : Tracked F σ) (caller : Caller)

def PipeOp.perform : PipeOp → Files F σ
  | .pipe => (fdPipe t.files caller).2
  | .dup fd => (fdDup t.files caller fd).2
  | .dup2 oldfd newfd => (fdDup2 t.files caller oldfd newfd).2
  | .fork child => { t.files with fds := t.files.fds.cloneAllForTask caller.task child }
  | .close fd => (fdClose t.files caller fd).2
  | .exit => { t.files with fds := t.files.fds.closeAllForTask caller.task }

/-- One round of `clone_all_for_task` with the ends. -/
def copyTracked (child : Nat) (state : FdTable F × (Nat → PipeEnd)) (source : Fin MAX_FDS × FdEntry F) :
    FdTable F × (Nat → PipeEnd) :=
  match state.1.copyEntry child source.2 with
  | none => state
  | some copied => (copied.2, update state.2 copied.1 (state.2 source.1))

/-- The ends after an operation: a new descriptor has the end of the one it was copied
    from. -/
def PipeOp.track : PipeOp → Nat → PipeEnd
  | .pipe =>
    match (fdPipe t.files caller).1 with
    | some fds => update (update t.ends fds.1 .read) fds.2 .write
    | none =>
      -- a single free slot keeps the read end
      match t.files.fds.firstFree with
      | some fd => update t.ends fd .read
      | none => t.ends
  | .dup fd =>
    match (fdDup t.files caller fd).1 with
    | some new => update t.ends new (t.ends fd)
    | none => t.ends
  | .dup2 oldfd newfd =>
    match (fdDup2 t.files caller oldfd newfd).1 with
    | some new => update t.ends new (t.ends oldfd)
    | none => t.ends
  | .fork child =>
    ((t.files.fds.ofTask caller.task).foldl (copyTracked child) (t.files.fds, t.ends)).2
  | .close _ => t.ends
  | .exit => t.ends

def pipeStep (t : Tracked F σ) (call : Caller × PipeOp) : Option (Tracked F σ) :=
  some ⟨call.2.perform t call.1, call.2.track t call.1⟩

end Operations

section Properties

variable {F : Type} {σ : F → Type} (t : Tracked F σ)

def Tracked.Refers (id : Fin MAX_PIPES) (e : PipeEnd) : Prop := t.files.fds.Refers t.ends id e

/-- The flags and slots of the pipes agree with the descriptors. -/
structure Tracks : Prop where
  flags : ∀ id pipe e, t.files.pipes id = some pipe → (pipe.isOpen e = true ↔ t.Refers id e)
  slots : ∀ id, t.files.pipes id = none ↔ ∀ e, ¬ t.Refers id e

def Files.filled (w : Files F σ) (id : Fin MAX_PIPES) (data : List UInt8) : Files F σ :=
  { w with pipes := update w.pipes id ((w.pipes id).map fun pipe => { pipe with data := data }) }

/-- Whatever a pipe holds, nothing is written through its read end, and nothing is
    taken out through its write end. -/
def Directed [DecidableEq F] (ops : (f : F) → FileSystem (σ f)) : Prop :=
  ∀ fd entry id data caller, t.files.fds fd = some entry → entry.pipeId = some id →
    (t.ends fd = .read → ∀ buf,
      (fdWrite ops (t.files.filled id data) caller fd buf).2.pipes = (t.files.filled id data).pipes) ∧
    (t.ends fd = .write → ∀ len,
      (fdRead ops (t.files.filled id data) caller fd len).2.pipes = (t.files.filled id data).pipes)

/-- Neither pipes nor descriptors of pipes. -/
structure NoPipes : Prop where
  pipes : ∀ id, t.files.pipes id = none
  fds : ∀ fd entry, t.files.fds fd = some entry → entry.pipeId = none

/-- The descriptors that remain fit the flag that closing `fd` clears: none is for the
    end it stands for by its parity, and some is for the other. -/
def FdTable.LeftBy (rest : FdTable F) (ends : Nat → PipeEnd) (id : Fin MAX_PIPES) (fd : Nat) : Prop :=
  ¬ rest.Refers ends id (.ofFd fd) ∧ rest.Refers ends id (PipeEnd.ofFd fd).other

/-- What keeps the flags right: `pipe` has two free descriptors or none, and a descriptor
    is closed with the last of its end only, in favour of the other end; a task that
    exits leaves every end to another. -/
def KeepsEnds (caller : Caller) : PipeOp → Prop
  | .pipe => (∃ id, t.files.pipes id = none) → ¬ ∃! fd, t.files.fds fd = none
  | .close fd => ∀ entry id, fdGet t.files caller fd = some entry → entry.pipeId = some id →
      (t.files.fds.set fd none).LeftBy t.ends id fd
  | .dup2 oldfd newfd => ∀ old gone id, fdGet t.files caller oldfd = some old →
      t.files.fds.get newfd = some gone → gone.pipeId = some id →
      (t.files.fds.set newfd (some old)).LeftBy (update t.ends newfd (t.ends oldfd)) id newfd
  | .exit => ∀ id e, t.Refers id e → (t.files.fds.closeAllForTask caller.task).Refers t.ends id e
  | .dup _ => True
  | .fork _ => True

def MakesNoPipe : PipeOp → Prop
  | .pipe => ∀ fd, t.files.fds fd ≠ none
  | _ => True

end Properties

section Tables

variable {F : Type} {table : FdTable F} {ends : Nat → PipeEnd} {id : Fin MAX_PIPES} {e e' : PipeEnd}
  {entry source : FdEntry F} {i j : Fin MAX_FDS}

theorem FdTable.refers_update {new : Option (FdEntry F)} :
    Refers (update table i new) (update ends i e') id e ↔
      (∃ entry, new = some entry ∧ entry.pipeId = some id ∧ e' = e) ∨
      ∃ j ≠ i, ∃ entry, table j = some entry ∧ entry.pipeId = some id ∧ ends j = e := by
  constructor
  · rintro ⟨j, entry, stored, kind, made⟩
    by_cases this : j = i
    · subst this
      rw [update_self] at stored made
      exact .inl ⟨entry, stored, kind, made⟩
    · rw [update_of_ne this] at stored
      rw [update_of_ne (fun same => this (Fin.ext same))] at made
      exact .inr ⟨j, this, entry, stored, kind, made⟩
  · rintro (⟨entry, stored, kind, made⟩ | ⟨j, apart, entry, stored, kind, made⟩)
    · exact ⟨i, entry, by rw [update_self, stored], kind, by rw [update_self, made]⟩
    · refine ⟨j, entry, by rw [update_of_ne apart, stored], kind, ?_⟩
      rw [update_of_ne (fun same => apart (Fin.ext same)), made]

theorem FdTable.refers_fill (free : table i = none) :
    Refers (update table i (some entry)) (update ends i e') id e ↔
      (entry.pipeId = some id ∧ e' = e) ∨ table.Refers ends id e := by
  rw [refers_update]
  refine or_congr ⟨?_, fun added => ⟨entry, rfl, added⟩⟩ ⟨?_, ?_⟩
  · rintro ⟨_, stored, added⟩
    rw [some.inj stored]
    exact added
  · rintro ⟨k, _, held⟩
    exact ⟨k, held⟩
  · rintro ⟨k, old, stored, held⟩
    refine ⟨k, ?_, old, stored, held⟩
    rintro rfl
    rw [free] at stored
    cases stored

theorem FdTable.refers_copy (free : table i = none) (held : table j = some source)
    (kind : entry.pipeId = source.pipeId) :
    Refers (update table i (some entry)) (update ends i (ends j)) id e ↔ table.Refers ends id e := by
  rw [refers_fill free, kind]
  exact or_iff_right_of_imp fun copy => ⟨j, source, held, copy⟩

theorem foldl_copyTracked (id : Fin MAX_PIPES) (e : PipeEnd) (child : Nat) (sources : List (Fin MAX_FDS × FdEntry F)) :
    ∀ table ends, (∀ source ∈ sources, table source.1 = some source.2) →
      (sources.foldl (copyTracked child) (table, ends)).1 =
        sources.foldl (fun t source => ((t.copyEntry child source.2).map Prod.snd).getD t) table ∧
      ((sources.foldl (copyTracked child) (table, ends)).1.Refers
        (sources.foldl (copyTracked child) (table, ends)).2 id e ↔ table.Refers ends id e) := by
  induction sources with
  | nil => exact fun table ends _ => ⟨rfl, Iff.rfl⟩
  | cons source rest ih =>
    intro table ends held
    cases copy : table.copyEntry child source.2 with
    | none =>
      simp only [foldl_cons, copyTracked, copy, map_none, getD_none]
      exact ih table ends fun other member => held other (.tail _ member)
    | some copied =>
      simp only [foldl_cons, copyTracked, copy, map_some, getD_some]
      obtain ⟨i, entry, number, free, kind, -, made⟩ := copyEntry_eq_some copy
      rw [number, made]
      obtain ⟨same, refers⟩ := ih (update table i (some entry))
        (update ends i (ends source.1)) (fun other member => by
          have stored := held other (.tail _ member)
          have apart : other.1 ≠ i := by
            intro here
            rw [here, free] at stored
            cases stored
          rw [update_of_ne apart, stored])
      refine ⟨same, refers.trans ?_⟩
      exact refers_copy free (held source (.head _)) kind

end Tables

section Steps

variable {F : Type} {σ : F → Type} {t : Tracked F σ} {caller : Caller} {id : Fin MAX_PIPES}
variable {e e' : PipeEnd} {ends : Nat → PipeEnd} {i : Fin MAX_FDS} {new : Option (FdEntry F)}
variable {w : Files F σ} {fds table rest : FdTable F} {pipe : PipeBuffer}

/-- The three outcomes of `pipe`. -/
inductive PipeMade (w : Files F σ) (caller : Caller) : Option (Nat × Nat) × Files F σ → Prop
  | refused (full : (∀ id, w.pipes id ≠ none) ∨ ∀ fd, w.fds fd ≠ none) : PipeMade w caller (none, w)
  /-- One slot is free; the read end stays in it, and its pipe is taken back. -/
  | half {id : Fin MAX_PIPES} {i : Fin MAX_FDS} {entry : FdEntry F} (unused : w.pipes id = none)
      (free : w.fds i = none) (last : ∀ fd, w.fds fd = none → fd = i) (kind : entry.pipeId = some id) :
      PipeMade w caller (none, { w with fds := update w.fds i (some entry) })
  | made {id : Fin MAX_PIPES} {i j : Fin MAX_FDS} {readEnd writeEnd : FdEntry F} (unused : w.pipes id = none)
      (free : w.fds i = none) (free' : w.fds j = none) (less : i < j)
      (kind : readEnd.pipeId = some id) (kind' : writeEnd.pipeId = some id)
      (owner : writeEnd.taskId = caller.task) :
      PipeMade w caller (some (i, j),
        { w with
          fds := update (update w.fds i (some readEnd)) j (some writeEnd)
          pipes := update w.pipes id (some { readOpen := true, writeOpen := true }) })

theorem fdPipe_made (w : Files F σ) (caller : Caller) : PipeMade w caller (fdPipe w caller) := by
  unfold fdPipe
  split
  · next full =>
    refine .refused (.inl fun id free => ?_)
    simpa [free] using find?_eq_none.mp full id (mem_finRange id)
  · next id found =>
    have unused : w.pipes id = none := by simpa using find?_some found
    split
    · next full => exact .refused (.inr (put_eq_none full))
    · next readEnd first =>
      obtain ⟨i, number, free, earlier, made⟩ := put_eq_some first
      split
      · next full =>
        rw [made]
        refine .half unused free (fun fd empty => ?_) rfl
        by_contra apart
        refine put_eq_none full fd ?_
        rw [made, update_of_ne apart, empty]
      · next writeEnd second =>
        obtain ⟨j, number', free', _, made'⟩ := put_eq_some second
        have apart : j ≠ i := by
          rintro rfl
          rw [made, update_self] at free'
          cases free'
        rw [made, update_of_ne apart] at free'
        have less : i < j := lt_of_le_of_ne (le_of_not_gt fun before => earlier j before free') apart.symm
        rw [number, number', made', made]
        exact .made unused free free' less rfl rfl rfl

theorem Tracks.congr (tracks : Tracks t)
    (same : ∀ id e, fds.Refers ends id e ↔ t.Refers id e) : Tracks ⟨{ t.files with fds }, ends⟩ :=
  ⟨fun id pipe e found => (tracks.flags id pipe e found).trans (same id e).symm,
    fun id => (tracks.slots id).trans (forall_congr' fun e => not_congr (same id e).symm)⟩

theorem FdTable.refers_of_free
    (free : table i = none) : table.Refers (update ends i e') id e ↔ table.Refers ends id e := by
  have same : table = update table i none := by rw [← free, update_eq_self]
  rw [same, refers_update]
  nth_rewrite 2 [← update_eq_self i.val ends]
  rw [refers_update]
  simp

theorem closePipe_self {pipes : PipeTable} (fd : Nat) (found : pipes id = some pipe) :
    ∃ pipe', closePipe pipes fd id id = some pipe' ∧ pipe'.isOpen (.ofFd fd) = false ∧
      pipe'.isOpen (ofFd fd).other = pipe.isOpen (ofFd fd).other := by
  unfold closePipe
  rw [update_self, found]
  refine ⟨_, rfl, ?_⟩
  unfold ofFd
  by_cases even : fd % 2 = 0
  · simp only [even, if_true]
    exact ⟨rfl, rfl⟩
  · simp only [even, if_false]
    exact ⟨rfl, rfl⟩

theorem PipeEnd.eq_or_other (e e' : PipeEnd) : e' = e ∨ e' = e.other := by
  cases e <;> cases e' <;> simp [other]

variable (tracks : Tracks t) {fd task : Nat} {entry : FdEntry F}

include tracks

/-- Closing a descriptor of a pipe leaves the flags right exactly if what remains of the
    pipe's descriptors fits the flag that is cleared. -/
theorem Tracks.closed_iff (held : ∃ e, t.Refers id e) (less : ∀ e, rest.Refers ends id e → t.Refers id e)
    (others : ∀ k e, k ≠ id → (rest.Refers ends k e ↔ t.Refers k e)) :
    Tracks ⟨{ t.files with fds := rest, pipes := closePipe t.files.pipes fd id }, ends⟩ ↔
      rest.LeftBy ends id fd := by
  obtain ⟨pipe, found⟩ : ∃ pipe, t.files.pipes id = some pipe := by
    obtain ⟨e, refers⟩ := held
    refine ne_none_iff_exists'.mp fun free => ?_
    exact (tracks.slots id).mp free e refers
  obtain ⟨pipe', found', cleared, kept⟩ := closePipe_self fd found
  constructor
  · intro tracks'
    have gone : ¬ rest.Refers ends id (.ofFd fd) := fun refers => by
      have isOpen := (tracks'.flags id pipe' _ found').mpr refers
      rw [cleared] at isOpen
      cases isOpen
    refine ⟨gone, ?_⟩
    by_contra last
    have free := (tracks'.slots id).mpr fun e refers => by
      rcases eq_or_other (.ofFd fd) e with rfl | rfl
      · exact gone refers
      · exact last refers
    exact some_ne_none pipe' (found'.symm.trans free)
  · rintro ⟨gone, left⟩
    have away : ∀ k, k ≠ id → closePipe t.files.pipes fd id k = t.files.pipes k :=
      fun k apart => update_of_ne apart ..
    refine ⟨fun k other e there => ?_, fun k => ?_⟩
    · by_cases this : k = id
      · subst this
        cases found'.symm.trans there
        rcases eq_or_other (.ofFd fd) e with rfl | rfl
        · exact iff_of_false (by simp [cleared]) gone
        · exact iff_of_true (kept.trans ((tracks.flags k pipe _ found).mpr (less _ left))) left
      · exact (tracks.flags k other e ((away k this).symm.trans there)).trans (others k e this).symm
    · by_cases this : k = id
      · subst this
        refine iff_of_false (fun free => some_ne_none _ (found'.symm.trans free)) fun unused => ?_
        exact unused _ left
      · change closePipe t.files.pipes fd id k = none ↔ _
        rw [away k this]
        exact (tracks.slots k).trans (forall_congr' fun e => not_congr (others k e this).symm)

theorem Tracks.opened (unused : t.files.pipes id = none)
    (refers : ∀ k e, fds.Refers ends k e ↔ k = id ∨ t.Refers k e) :
    Tracks ⟨{ t.files with
      fds, pipes := update t.files.pipes id (some { readOpen := true, writeOpen := true }) }, ends⟩ := by
  refine ⟨fun k pipe e found => ?_, fun k => ?_⟩
  · rw [Tracked.Refers, refers]
    by_cases this : k = id
    · subst this
      simp only [update_self, some.injEq] at found
      subst found
      cases e <;> simp [PipeBuffer.isOpen]
    · simp only [update_of_ne this] at found
      simpa only [this, false_or] using tracks.flags k pipe e found
  · simp only [Tracked.Refers, refers]
    by_cases this : k = id
    · subst this
      simp only [update_self, true_or, not_true_eq_false]
      exact iff_of_false (some_ne_none _) fun unused => unused .read
    · simpa only [update_of_ne this, this, false_or, Tracked.Refers] using tracks.slots k

theorem Tracks.pipe_iff :
    Tracks ⟨PipeOp.pipe.perform t caller, PipeOp.pipe.track t caller⟩ ↔ KeepsEnds t caller .pipe := by
  have made := fdPipe_made t.files caller
  simp only [PipeOp.perform, PipeOp.track]
  generalize fdPipe t.files caller = result at made
  cases made with
  | refused full =>
    refine iff_of_true ?_ fun ⟨id, unused⟩ ⟨fd, free, _⟩ => ?_
    · dsimp only
      split
      · next fd first => exact tracks.congr fun id e => refers_of_free (by simpa using find?_some first)
      · exact tracks
    · exact full.elim (fun pipes => pipes id unused) fun slots => slots fd free
  | half unused free last kind =>
    refine iff_of_false (fun tracks' => ?_) fun careful => careful ⟨_, unused⟩ ⟨_, free, last⟩
    exact (tracks'.slots _).mp unused _ ⟨_, _, update_self .., kind, rfl⟩
  | @made id i j readEnd writeEnd unused free free' less kind kind' owner =>
    refine iff_of_true ?_ fun _ ⟨fd, _, only⟩ => ?_
    · have refers : ∀ k e, FdTable.Refers (update (update t.files.fds i (some readEnd)) j
          (some writeEnd)) (update (update t.ends i .read) j .write) k e ↔
          k = id ∨ t.Refers k e := by
        intro k e
        rw [refers_fill (by rw [update_of_ne less.ne', free']), refers_fill free, kind, kind', ← or_assoc]
        refine or_congr ?_ Iff.rfl
        cases e <;> simp [eq_comm]
      exact tracks.opened unused refers
    · exact less.ne ((only i free).trans (only j free').symm)

theorem Tracks.dup (fd : Nat) :
    Tracks ⟨(PipeOp.dup fd).perform t caller, (PipeOp.dup fd).track t caller⟩ := by
  simp only [PipeOp.perform, PipeOp.track, fdDup]
  cases copy : t.files.fds.dup caller.task fd with
  | none => exact tracks
  | some copied =>
    obtain ⟨source, found, done⟩ := dup_eq_some copy
    obtain ⟨j, rfl, held⟩ := get_some found
    obtain ⟨i, entry, number, free, kind, -, made⟩ := copyEntry_eq_some done
    dsimp only
    rw [number, made]
    exact tracks.congr fun id e => refers_copy free held kind

theorem Tracks.fork (child : Nat) :
    Tracks ⟨(PipeOp.fork child).perform t caller, (PipeOp.fork child).track t caller⟩ := by
  have copied := fun id e => foldl_copyTracked id e child (t.files.fds.ofTask caller.task)
    t.files.fds t.ends fun _ => mem_ofTask
  refine tracks.congr fun id e => ?_
  rw [cloneAllForTask, ← (copied id e).1]
  exact (copied id e).2

omit tracks

/-- A slot is written with a descriptor of pipes in use: only the pipe of its former
    entry may lose a reference. -/
theorem refers_overwritten (known : ∀ entry k, new = some entry → entry.pipeId = some k → t.Refers k e') :
    (∀ k e, (set t.files.fds i new).Refers (update t.ends i e') k e → t.Refers k e) ∧
    ∀ k e, (∀ entry, t.files.fds i = some entry → entry.pipeId ≠ some k) →
      ((set t.files.fds i new).Refers (update t.ends i e') k e ↔ t.Refers k e) := by
  have less : ∀ k e, (set t.files.fds i new).Refers (update t.ends i e') k e → t.Refers k e := by
    intro k e refers
    rw [set_eq, refers_update] at refers
    rcases refers with ⟨entry, stored, pipe, rfl⟩ | ⟨j, _, kept⟩
    · exact known entry k stored pipe
    · exact ⟨j, kept⟩
  refine ⟨less, fun k e apart => ⟨less k e, ?_⟩⟩
  rintro ⟨j, entry, stored, pipe, made⟩
  rw [set_eq, refers_update]
  refine .inr ⟨j, ?_, entry, stored, pipe, made⟩
  rintro rfl
  exact apart entry stored pipe

theorem closeFd_pipe (held : w.fds i = some entry) (kind : entry.pipeId = some id) :
    (closeFd w i).2 = { w with fds := w.fds.set i none, pipes := closePipe w.pipes i id } := by
  rw [closeFd, get_eq, held]
  simp only [kind]

theorem set_closeFd : (closeFd w i).2.fds.set i new = w.fds.set i new := by
  rw [closeFd]
  cases w.fds.get i with
  | none => rfl
  | some entry => simp only [set_eq, update_idem]

theorem closeFd_other (kind : ∀ entry, w.fds i = some entry → entry.pipeId = none) :
    (closeFd w i).2 = { w with fds := w.fds.set i none } := by
  rw [closeFd, get_eq]
  cases held : w.fds i with
  | none =>
    have same : w.fds.set i none = w.fds := by rw [set_eq, ← held, update_eq_self]
    rw [same]
  | some entry => simp only [kind entry held]

include tracks

/-- The slot `i` is closed and then written: the flags stay right exactly if the slot
    held no pipe, or the pipe is left with the right descriptors. -/
theorem Tracks.overwrite_iff (i : Fin MAX_FDS) (new : Option (FdEntry F)) (e' : PipeEnd)
    (known : ∀ entry k, new = some entry → entry.pipeId = some k → t.Refers k e') :
    Tracks ⟨{ (closeFd t.files i).2 with fds := t.files.fds.set i new }, update t.ends i e'⟩ ↔
      ∀ gone id, t.files.fds i = some gone → gone.pipeId = some id →
        (t.files.fds.set i new).LeftBy (update t.ends i e') id i := by
  obtain ⟨less, others⟩ := refers_overwritten known
  by_cases pipe : ∃ gone id, t.files.fds i = some gone ∧ gone.pipeId = some id
  · obtain ⟨gone, id, held, kind⟩ := pipe
    rw [closeFd_pipe held kind]
    refine (tracks.closed_iff ⟨_, i, gone, held, kind, rfl⟩ (less id) fun k e apart => ?_).trans ⟨?_, ?_⟩
    · refine others k e fun entry stored pipe => apart ?_
      rw [← some.inj (held.symm.trans stored), kind] at pipe
      exact (some.inj pipe).symm
    · intro left gone' id' held' kind'
      rw [← some.inj (held.symm.trans held'), kind] at kind'
      exact some.inj kind' ▸ left
    · exact fun careful => careful gone id held kind
  · have away : ∀ entry k, t.files.fds i = some entry → entry.pipeId ≠ some k :=
      fun entry k stored kind => pipe ⟨entry, k, stored, kind⟩
    rw [closeFd_other fun entry stored => eq_none_iff_forall_ne_some.mpr fun k => away entry k stored]
    refine iff_of_true (tracks.congr fun k e => others k e fun entry stored => away entry k stored) ?_
    exact fun gone id held kind => absurd kind (away gone id held)

theorem Tracks.close_iff (fd : Nat) :
    Tracks ⟨(PipeOp.close fd).perform t caller, (PipeOp.close fd).track t caller⟩ ↔
      KeepsEnds t caller (.close fd) := by
  simp only [PipeOp.perform, PipeOp.track, fdClose, KeepsEnds]
  cases found : fdGet t.files caller fd with
  | none => exact iff_of_true tracks fun _ _ no => by cases no
  | some entry =>
    obtain ⟨i, rfl, held⟩ := get_some (fdGet_eq found).1
    have closed := tracks.overwrite_iff i none (t.ends i) fun _ _ no => by cases no
    rw [update_eq_self] at closed
    have same : { (closeFd t.files i).2 with fds := t.files.fds.set i none } = (closeFd t.files i).2 := by
      rw [closeFd, get_eq, held]
    rw [same] at closed
    simp only [held] at closed
    exact closed

theorem Tracks.dup2_iff (oldfd newfd : Nat) :
    Tracks ⟨(PipeOp.dup2 oldfd newfd).perform t caller, (PipeOp.dup2 oldfd newfd).track t caller⟩ ↔
      KeepsEnds t caller (.dup2 oldfd newfd) := by
  simp only [PipeOp.perform, PipeOp.track, fdDup2, KeepsEnds]
  by_cases known : newfd < MAX_FDS
  · obtain ⟨i, rfl⟩ : ∃ i : Fin MAX_FDS, newfd = i := ⟨⟨newfd, known⟩, rfl⟩
    rw [if_neg (by omega)]
    cases found : fdGet t.files caller oldfd with
    | none => exact iff_of_true tracks fun _ _ _ no => by cases no
    | some old =>
      obtain ⟨j, rfl, held⟩ := get_some (fdGet_eq found).1
      simp only [set_closeFd, get_eq]
      refine (tracks.overwrite_iff i (some old) (t.ends j) fun entry k same pipe => ?_).trans ⟨?_, ?_⟩
      · exact ⟨j, old, held, some.inj same ▸ pipe, rfl⟩
      · intro left old' gone id same stored kind
        rw [← some.inj same]
        exact left gone id stored kind
      · exact fun careful gone id => careful old gone id rfl
  · rw [if_pos (by omega)]
    refine iff_of_true tracks fun old gone id _ stored => ?_
    simp [FdTable.get, known] at stored

omit tracks

theorem FdTable.refers_closeAll
    (refers : (table.closeAllForTask task).Refers ends id e) : table.Refers ends id e := by
  obtain ⟨fd, entry, stored, rest⟩ := refers
  exact ⟨fd, entry, (filter_eq_some_iff.mp stored).1, rest⟩

include tracks

theorem Tracks.exit_iff :
    Tracks ⟨PipeOp.exit.perform t caller, PipeOp.exit.track t caller⟩ ↔ KeepsEnds t caller .exit := by
  constructor
  · intro tracks' id e refers
    obtain ⟨pipe, found⟩ : ∃ pipe, t.files.pipes id = some pipe :=
      ne_none_iff_exists'.mp fun free => (tracks.slots id).mp free e refers
    exact (tracks'.flags id pipe e found).mp ((tracks.flags id pipe e found).mpr refers)
  · exact fun left => tracks.congr fun id e => ⟨refers_closeAll, left id e⟩

theorem Tracks.step_iff (op : PipeOp) :
    Tracks ⟨op.perform t caller, op.track t caller⟩ ↔ KeepsEnds t caller op := by
  cases op with
  | pipe => exact tracks.pipe_iff
  | dup fd => exact iff_of_true (tracks.dup fd) trivial
  | dup2 oldfd newfd => exact tracks.dup2_iff oldfd newfd
  | fork child => exact iff_of_true (tracks.fork child) trivial
  | close fd => exact tracks.close_iff fd
  | exit => exact tracks.exit_iff

omit tracks

theorem noPipes_iff : NoPipes t ↔ Tracks t ∧ ∀ id, t.files.pipes id = none := by
  constructor
  · intro nothing
    refine ⟨⟨fun id pipe e found => ?_, fun id => ?_⟩, nothing.pipes⟩
    · rw [nothing.pipes id] at found
      cases found
    · refine iff_of_true (nothing.pipes id) fun e => ?_
      rintro ⟨fd, entry, stored, kind, _⟩
      rw [nothing.fds fd entry stored] at kind
      cases kind
  · rintro ⟨tracks, free⟩
    refine ⟨free, fun fd entry stored => eq_none_iff_forall_ne_some.mpr fun id kind => ?_⟩
    exact (tracks.slots id).mp (free id) (t.ends fd) ⟨fd, entry, stored, kind, rfl⟩

theorem closeFd_pipes (free : ∀ id, w.pipes id = none) (fd : Nat) (id : Fin MAX_PIPES) :
    (closeFd w fd).2.pipes id = none := by
  unfold closeFd
  split
  · exact free id
  · next entry _ =>
    cases entry.pipeId with
    | none => exact free id
    | some k =>
      simp only [closePipe, free k, map_none]
      by_cases this : id = k
      · rw [this, update_self]
      · rw [update_of_ne this, free id]

theorem NoPipes.step (nothing : NoPipes t) {op : PipeOp} (room : MakesNoPipe t op) :
    NoPipes ⟨op.perform t caller, op.track t caller⟩ := by
  obtain ⟨tracks, free⟩ := noPipes_iff.mp nothing
  have away : ∀ fd entry id, t.files.fds fd = some entry → entry.pipeId ≠ some id := by
    intro fd entry id stored
    rw [nothing.fds fd entry stored]
    exact (some_ne_none id).symm
  refine noPipes_iff.mpr ⟨tracks.step_iff op |>.mpr ?_, ?_⟩
  · cases op with
    | pipe => exact fun _ ⟨fd, empty, _⟩ => room fd empty
    | close fd =>
      intro entry id found kind
      obtain ⟨i, rfl, held⟩ := get_some (fdGet_eq found).1
      exact absurd kind (away i entry id held)
    | dup2 oldfd newfd =>
      intro old gone id _ stored kind
      obtain ⟨i, rfl, held⟩ := get_some stored
      exact absurd kind (away i gone id held)
    | exit =>
      rintro id e ⟨fd, entry, stored, kind, _⟩
      exact absurd kind (away fd entry id stored)
    | dup fd => trivial
    | fork child => trivial
  · cases op with
    | pipe =>
      have made := fdPipe_made t.files caller
      simp only [PipeOp.perform]
      generalize fdPipe t.files caller = result at made
      cases made with
      | refused => exact free
      | half unused empty | made unused empty => exact absurd empty (room _)
    | close fd =>
      simp only [PipeOp.perform, fdClose]
      cases fdGet t.files caller fd with
      | none => exact free
      | some entry => exact closeFd_pipes free fd
    | dup2 oldfd newfd =>
      simp only [PipeOp.perform, fdDup2]
      split
      · exact free
      · cases fdGet t.files caller oldfd with
        | none => exact free
        | some entry => exact closeFd_pipes free newfd
    | dup fd =>
      simp only [PipeOp.perform, fdDup]
      cases t.files.fds.dup caller.task fd with
      | none | some copied => exact free
    | exit | fork child => exact free

variable [DecidableEq F] {ops : (f : F) → FileSystem (σ f)}

theorem NoPipes.directed (nothing : NoPipes t) : Directed t ops := by
  intro fd entry id data caller stored kind
  rw [nothing.fds fd entry stored] at kind
  cases kind

theorem not_directed {fd : Fin MAX_FDS} (cred : Credentials)
    (held : t.files.fds fd = some entry) (kind : entry.pipeId = some id) (positive : fd.val ≠ 0)
    (made : t.ends fd = .write) (there : t.files.pipes id = some pipe) (readable : pipe.readOpen = true) :
    ¬ Directed t ops := by
  intro directed
  have kept := (directed fd entry id [0] ⟨entry.taskId, cred⟩ held kind).2 made 1
  have found : fdGet (t.files.filled id [0]) ⟨entry.taskId, cred⟩ fd = some entry := by
    simp [fdGet, Files.filled, get_eq, held]
  have bytes : ((t.files.filled id [0]).pipes id).bind (·.read 1) = some ([0], { pipe with data := [] }) := by
    simp [Files.filled, there, PipeBuffer.read, readable]
  rw [fdRead, if_neg positive, found] at kept
  simp only [kind, bytes] at kept
  have same := congrFun kept id
  simp [Files.filled, there] at same

/-- A `pipe` that finds a free descriptor spoils the ends: it leaves a read end without a
    pipe, or a pipe that can be read through its write end. -/
theorem NoPipes.pipe_unsound (room : ∃ fd, t.files.fds fd = none) (free : ∀ id, t.files.pipes id = none) :
    ¬ (Tracks ⟨PipeOp.pipe.perform t caller, PipeOp.pipe.track t caller⟩ ∧
      Directed ⟨PipeOp.pipe.perform t caller, PipeOp.pipe.track t caller⟩ ops) := by
  rintro ⟨tracks, directed⟩
  have made := fdPipe_made t.files caller
  simp only [PipeOp.perform, PipeOp.track] at tracks directed
  generalize fdPipe t.files caller = result at made tracks directed
  cases made with
  | refused full =>
    obtain ⟨fd, empty⟩ := room
    exact full.elim (fun taken => taken firstPipe (free _)) fun taken => taken fd empty
  | half unused _ _ kind =>
    exact (tracks.slots _).mp unused _ ⟨_, _, update_self .., kind, rfl⟩
  | made unused _ _ less _ kind' =>
    refine not_directed caller.cred (update_self ..) kind' (by omega) (update_self ..)
      (update_self ..) rfl directed

/-- The flags, slots and directions of the pipes are right. -/
def Sound (ops : (f : F) → FileSystem (σ f)) (t : Tracked F σ) : Prop := Tracks t ∧ Directed t ops

theorem NoPipes.sound_iff (nothing : NoPipes t) (ops : (f : F) → FileSystem (σ f)) (caller : Caller) (op : PipeOp) :
    Sound ops ⟨op.perform t caller, op.track t caller⟩ ↔ MakesNoPipe t op := by
  constructor
  · intro sound
    cases op with
    | pipe =>
      intro fd empty
      exact NoPipes.pipe_unsound ⟨fd, empty⟩ nothing.pipes sound
    | _ => trivial
  · intro room
    have still : NoPipes ⟨op.perform t caller, op.track t caller⟩ := nothing.step room
    exact ⟨(noPipes_iff.mp still).1, still.directed⟩

/-- A run that starts without pipes keeps flags, slots and directions right exactly if no
    `pipe` in it finds a free descriptor; it keeps the flags and slots right exactly if
    all its steps are careful. -/
theorem pipe_ends_iff (ops : (f : F) → FileSystem (σ f)) (nothing : NoPipes t) (run : List (Caller × PipeOp)) :
    (Always pipeStep (Sound ops) run t ↔ Along pipeStep (fun t call => MakesNoPipe t call.2) run t) ∧
    (Always pipeStep Tracks run t ↔ Along pipeStep (fun t call => KeepsEnds t call.1 call.2) run t) := by
  constructor
  · refine always_iff_along (fun t => Sound ops t → NoPipes t) (fun t call still sound => ?_)
      (fun _ => nothing) ⟨(noPipes_iff.mp nothing).1, nothing.directed⟩
    have settled := (still sound).sound_iff ops call.1 call.2
    exact ⟨_, rfl, fun sound' => (still sound).step (settled.mp sound'), settled⟩
  · refine always_iff_along (fun _ => True) (fun t call _ tracks => ?_) trivial (noPipes_iff.mp nothing).1
    exact ⟨_, rfl, trivial, tracks.step_iff call.2⟩

end Steps

section Sample

/-- The machine before the first descriptor is made. -/
def start : Tracked Unit fun _ => TmpFs := ⟨tmpfsRoot, fun _ => .read⟩

theorem start_noPipes : NoPipes start := ⟨fun _ => rfl, fun _ _ stored => by cases stored⟩

theorem pipe_ends_kept :
    Always pipeStep (Sound fun _ => TmpFs.fileSystem) [(firstTask, .fork 2), (secondTask, .exit)] start ∧
    Always pipeStep Tracks [(firstTask, .pipe), (firstTask, .fork 2)] start := by
  obtain ⟨sound, _⟩ := pipe_ends_iff (fun _ => TmpFs.fileSystem) start_noPipes
    [(firstTask, .fork 2), (secondTask, .exit)]
  obtain ⟨_, tracks⟩ := pipe_ends_iff (fun _ => TmpFs.fileSystem) start_noPipes
    [(firstTask, .pipe), (firstTask, .fork 2)]
  refine ⟨sound.mpr (along_of_forall ?_ _), tracks.mpr ⟨?_, fun _ _ => ⟨trivial, fun _ _ => trivial⟩⟩⟩
  · intro t call member
    obtain rfl | rfl : call = _ ∨ call = _ := by simpa using member
    · trivial
    · trivial
  · -- all descriptors are free
    intro _ ⟨fd, _, only⟩
    have same : (⟨0, by decide⟩ : Fin MAX_FDS) = ⟨1, by decide⟩ := (only _ rfl).trans (only _ rfl).symm
    cases same

def after (run : List (Caller × PipeOp)) : Option (Tracked Unit fun _ => TmpFs) := exec pipeStep run start

/-- A duplicate of the read end that is closed shuts the end for the original; the write
    end of a pipe can be read; and a task that exits leaves its pipe taken and open. -/
theorem pipe_ends_lost :
    (after [(firstTask, .pipe), (firstTask, .dup 0), (firstTask, .close 2)]).map
        (fun t => ((t.files.fds.get 0).map (·.pipeId), t.ends 0, (t.files.pipes firstPipe).map (·.readOpen))) =
      some (some (some firstPipe), .read, some false) ∧
    ((after [(firstTask, .pipe)]).map fun t =>
        (t.ends 1, (fdRead (fun _ => TmpFs.fileSystem) (t.files.filled firstPipe [7]) firstTask 1 1).1)) =
      some (.write, some [7]) ∧
    ((after [(firstTask, .pipe), (firstTask, .exit)]).map fun t =>
        ((List.finRange MAX_FDS).all fun fd => (t.files.fds fd).isNone,
          (t.files.pipes firstPipe).map fun pipe => (pipe.readOpen, pipe.writeOpen))) =
      some (true, some (true, true)) := by
  decide +kernel

end Sample

end Zenus.Sys
