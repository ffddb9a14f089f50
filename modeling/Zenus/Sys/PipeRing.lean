import Zenus.Sys.Files

/-! # The ring of a pipe

The bytes of a pipe stand in an array, between two positions that wrap around.  The ring
refines the list of bytes that the descriptor table works with.
-/

namespace Zenus.Sys

open Function List Nat

/-- A `PipeBuffer` as it is stored. -/
structure PipeRing where
  data : Nat → UInt8
  readPos : Nat
  writePos : Nat
  count : Nat
  readOpen : Bool
  writeOpen : Bool

namespace PipeRing

def push (p : PipeRing) (byte : UInt8) : PipeRing :=
  { p with
    data := update p.data p.writePos byte
    writePos := (p.writePos + 1) % PIPE_BUF_SIZE
    count := p.count + 1 }

def pop (p : PipeRing) : PipeRing :=
  { p with readPos := (p.readPos + 1) % PIPE_BUF_SIZE, count := p.count - 1 }

def writeLoop : List UInt8 → PipeRing → Nat × PipeRing
  | [], p => (0, p)
  | byte :: buf, p =>
    if PIPE_BUF_SIZE ≤ p.count then (0, p)
    else ((writeLoop buf (p.push byte)).1 + 1, (writeLoop buf (p.push byte)).2)

def write (p : PipeRing) (buf : List UInt8) : Option (Nat × PipeRing) :=
  if !p.writeOpen || !p.readOpen then none else some (p.writeLoop buf)

def readLoop : Nat → PipeRing → List UInt8 × PipeRing
  | 0, p => ([], p)
  | len + 1, p =>
    if p.count = 0 then ([], p) else (p.data p.readPos :: (readLoop len p.pop).1, (readLoop len p.pop).2)

def read (p : PipeRing) (len : Nat) : Option (List UInt8 × PipeRing) :=
  if !p.readOpen then none
  else if p.count = 0 && !p.writeOpen then some ([], p)
  else if p.count = 0 then none
  else some (p.readLoop len)

/-- The bytes between the positions. -/
def queued (p : PipeRing) : List UInt8 :=
  (List.range p.count).map fun i => p.data ((p.readPos + i) % PIPE_BUF_SIZE)

/-- The pipe as the descriptor table has it. -/
def buffer (p : PipeRing) : PipeBuffer := ⟨p.queued, p.readOpen, p.writeOpen⟩

/-- The positions are `count` bytes apart. -/
structure Wf (p : PipeRing) : Prop where
  room : p.count ≤ PIPE_BUF_SIZE
  start : p.readPos < PIPE_BUF_SIZE
  stop : p.writePos = (p.readPos + p.count) % PIPE_BUF_SIZE

variable {p : PipeRing}

theorem length_queued (p : PipeRing) : p.queued.length = p.count := by simp [queued]

theorem Wf.push (wf : p.Wf) (room : p.count < PIPE_BUF_SIZE) (byte : UInt8) :
    (p.push byte).Wf ∧ (p.push byte).queued = p.queued ++ [byte] := by
  refine ⟨⟨room, wf.start, ?_⟩, ?_⟩
  · simp only [PipeRing.push, wf.stop, mod_add_mod, add_assoc]
  · simp only [queued, PipeRing.push, range_succ, map_append, map_singleton, ← wf.stop, update_self]
    congr 1
    refine map_congr_left fun i inside => update_of_ne ?_ ..
    have before := mem_range.mp inside
    rw [wf.stop]
    simp only [PIPE_BUF_SIZE] at *
    omega

theorem Wf.pop (wf : p.Wf) (nonzero : p.count ≠ 0) : p.pop.Wf ∧ p.queued = p.data p.readPos :: p.pop.queued := by
  obtain ⟨n, count⟩ := exists_eq_succ_of_ne_zero nonzero
  refine ⟨⟨(sub_le ..).trans wf.room, mod_lt _ (by decide), ?_⟩, ?_⟩
  · simp only [PipeRing.pop, wf.stop, count, mod_add_mod]
    congr 1
    omega
  · simp only [queued, PipeRing.pop, count, range_succ_eq_map, map_cons, map_map, add_zero,
      mod_eq_of_lt wf.start, succ_sub_one]
    congr 1
    refine map_congr_left fun i _ => ?_
    simp only [comp_apply, mod_add_mod]
    congr 2
    omega

theorem Wf.writeLoop (wf : p.Wf) (buf : List UInt8) :
    (p.writeLoop buf).2.Wf ∧ (p.writeLoop buf).1 = min buf.length (PIPE_BUF_SIZE - p.count) ∧
      (p.writeLoop buf).2.queued = p.queued ++ buf.take (p.writeLoop buf).1 := by
  induction buf generalizing p with
  | nil => simpa [PipeRing.writeLoop] using wf
  | cons byte buf ih =>
    rw [PipeRing.writeLoop]
    split
    · next full => simpa [Nat.sub_eq_zero_of_le full] using wf
    · next room =>
      obtain ⟨wf', pushed⟩ := wf.push (not_le.mp room) byte
      obtain ⟨wf'', written, queued⟩ := ih wf'
      refine ⟨wf'', ?_, by rw [queued, pushed, take_succ_cons, append_assoc, singleton_append]⟩
      have more : (p.push byte).count = p.count + 1 := rfl
      rw [written, length_cons]
      omega

theorem writeLoop_ends (p : PipeRing) (buf : List UInt8) :
    (p.writeLoop buf).2.readOpen = p.readOpen ∧ (p.writeLoop buf).2.writeOpen = p.writeOpen := by
  induction buf generalizing p with
  | nil => exact ⟨rfl, rfl⟩
  | cons byte buf ih =>
    rw [PipeRing.writeLoop]
    split
    · exact ⟨rfl, rfl⟩
    · exact ih (p.push byte)

theorem readLoop_ends (p : PipeRing) (len : Nat) :
    (p.readLoop len).2.readOpen = p.readOpen ∧ (p.readLoop len).2.writeOpen = p.writeOpen := by
  induction len generalizing p with
  | zero => exact ⟨rfl, rfl⟩
  | succ len ih =>
    rw [PipeRing.readLoop]
    split
    · exact ⟨rfl, rfl⟩
    · exact ih p.pop

theorem Wf.readLoop (wf : p.Wf) (len : Nat) :
    (p.readLoop len).2.Wf ∧ (p.readLoop len).1 = p.queued.take len ∧
      (p.readLoop len).2.queued = p.queued.drop len := by
  induction len generalizing p with
  | zero => exact ⟨wf, rfl, rfl⟩
  | succ len ih =>
    rw [PipeRing.readLoop]
    split
    · next empty =>
      have nothing : p.queued = [] := length_eq_zero_iff.mp ((length_queued p).trans empty)
      exact ⟨wf, by rw [nothing, take_nil], by rw [nothing, drop_nil]⟩
    · next nonempty =>
      obtain ⟨wf', queued⟩ := wf.pop nonempty
      obtain ⟨wf'', bytes, rest⟩ := ih wf'
      exact ⟨wf'', by rw [queued, take_succ_cons, bytes], by rw [queued, drop_succ_cons, rest]⟩

/-- A write to the ring is a write to the list of its bytes. -/
theorem Wf.write_refines (wf : p.Wf) (buf : List UInt8) :
    (p.write buf).map (Prod.map id buffer) = p.buffer.write buf ∧ ∀ result ∈ p.write buf, result.2.Wf := by
  obtain ⟨wf', written, queued⟩ := wf.writeLoop buf
  obtain ⟨reads, writes⟩ := p.writeLoop_ends buf
  have taken : (buf.take (PIPE_BUF_SIZE - p.count)).length = (p.writeLoop buf).1 := by
    rw [length_take, written, Nat.min_comm]
  have same : buf.take (p.writeLoop buf).1 = buf.take (PIPE_BUF_SIZE - p.count) := by
    rw [written, take_eq_take_iff]
    omega
  rw [PipeRing.write, PipeBuffer.write, buffer]
  split
  · exact ⟨rfl, by simp⟩
  · refine ⟨?_, by simpa using wf'⟩
    simp only [Option.map_some, Prod.map, id, buffer, queued, reads, writes, same, length_queued, taken]

theorem Wf.read_refines (wf : p.Wf) (len : Nat) :
    (p.read len).map (Prod.map id buffer) = p.buffer.read len ∧ ∀ result ∈ p.read len, result.2.Wf := by
  obtain ⟨wf', bytes, queued⟩ := wf.readLoop len
  obtain ⟨reads, writes⟩ := p.readLoop_ends len
  have empty : p.queued.isEmpty = decide (p.count = 0) := by
    rw [Bool.eq_iff_iff, List.isEmpty_iff, decide_eq_true_iff, ← length_queued, length_eq_zero_iff]
  rw [PipeRing.read, PipeBuffer.read, buffer, empty]
  simp only [decide_eq_true_eq]
  split_ifs
  · exact ⟨rfl, by simp⟩
  · exact ⟨rfl, by simpa using wf⟩
  · exact ⟨rfl, by simp⟩
  · refine ⟨?_, by simpa using wf'⟩
    simp only [Option.map_some, Prod.map, id, buffer, bytes, queued, reads, writes]

end PipeRing

inductive PipeCall
  | write (buf : List UInt8)
  | read (len : Nat)

/-- A pipe, with the bytes that it has accepted and returned. -/
structure PipeLog where
  ring : PipeRing
  accepted : List UInt8
  returned : List UInt8

namespace PipeLog

def step (l : PipeLog) : PipeCall → PipeLog
  | .write buf =>
    match l.ring.write buf with
    | none => l
    | some (written, ring) => { l with ring, accepted := l.accepted ++ buf.take written }
  | .read len =>
    match l.ring.read len with
    | none => l
    | some (bytes, ring) => { l with ring, returned := l.returned ++ bytes }

/-- An empty pipe with both ends open. -/
def opened : PipeLog := ⟨⟨fun _ => 0, 0, 0, 0, true, true⟩, [], []⟩

theorem run_wf (calls : List PipeCall) :
    ((calls.foldl step opened).ring.Wf ∧ (calls.foldl step opened).ring.readOpen = true ∧
      (calls.foldl step opened).ring.writeOpen = true) ∧ (calls.foldl step opened).accepted =
      (calls.foldl step opened).returned ++ (calls.foldl step opened).ring.queued := by
  refine calls.foldlRecOn step (motive := fun l => (l.ring.Wf ∧ l.ring.readOpen = true ∧ l.ring.writeOpen = true) ∧
    l.accepted = l.returned ++ l.ring.queued)
    ⟨⟨by constructor <;> decide, rfl, rfl⟩, rfl⟩ fun l ⟨⟨wf, reads, writes⟩, sent⟩ call _ => ?_
  cases call with
  | write buf =>
    obtain ⟨wf', -, queued⟩ := wf.writeLoop buf
    obtain ⟨reads', writes'⟩ := l.ring.writeLoop_ends buf
    simp only [step, PipeRing.write, reads, writes]
    exact ⟨⟨wf', reads'.trans reads, writes'.trans writes⟩, by simp [queued, sent]⟩
  | read len =>
    obtain ⟨wf', bytes, queued⟩ := wf.readLoop len
    obtain ⟨reads', writes'⟩ := l.ring.readLoop_ends len
    by_cases empty : l.ring.count = 0
    · simpa [step, PipeRing.read, empty, reads, writes] using ⟨wf, sent⟩
    · simpa [step, PipeRing.read, empty, reads, writes, reads', writes', sent, bytes, queued] using wf'

/-- A pipe is a bounded first-in first-out queue: what was read is a prefix of what was accepted, the
    rest is the `count` bytes of the ring, and a write accepts as many bytes as there is room for. -/
theorem pipe_is_bounded_fifo (calls : List PipeCall) :
    let l := calls.foldl step opened
    l.accepted = l.returned ++ l.ring.queued ∧ l.ring.queued.length = l.ring.count ∧
      l.ring.count ≤ PIPE_BUF_SIZE ∧ l.ring.readPos < PIPE_BUF_SIZE ∧ l.ring.writePos < PIPE_BUF_SIZE ∧
      ∀ buf, (l.ring.write buf).map Prod.fst = some (min buf.length (PIPE_BUF_SIZE - l.ring.count)) := by
  obtain ⟨⟨wf, reads, writes⟩, sent⟩ := run_wf calls
  refine ⟨sent, PipeRing.length_queued _, wf.room, wf.start, ?_, fun buf => ?_⟩
  · rw [wf.stop]
    exact Nat.mod_lt _ (by decide)
  · rw [← (wf.writeLoop buf).2.1, PipeRing.write, reads, writes]
    rfl

end PipeLog

end Zenus.Sys
