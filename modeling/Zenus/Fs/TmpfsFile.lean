import Zenus.Fs.Tmpfs
import Zenus.Lib.Bytes
import Zenus.Lib.Run

/-! # Files of the in-memory file system as byte arrays

A file's bytes are the front of its buffer.  The buffer keeps what lies behind the
size: `truncate` zeroes it when it grows the file, a write past the end does not.
-/

namespace Zenus.Fs

open Lib.Bytes Lib.Word Function Lib.Run TmpFs List TmpNode

namespace TmpNode

variable (node : TmpNode)

def contents : List UInt8 := (List.range node.size).map node.byte

@[simp] theorem length_contents : node.contents.length = node.size := by
  rw [contents, length_map, length_range]

theorem getD_contents (i : Nat) : node.contents.getD i 0 = if i < node.size then node.byte i else 0 := by
  by_cases inside : i < node.size
  · rw [if_pos inside, contents, getD_eq_getElem _ _ (by simpa using inside)]
    simp
  · rw [if_neg inside, getD_eq_default _ _ (by simpa using inside)]

theorem slice_contents (offset len : Nat) :
    slice node.contents offset len =
      (range (min len (node.size - offset))).map fun i => node.byte (offset + i) := by
  apply ext_getElem
  · simp [slice]
  · intro i first second
    simp [slice, contents]

def written (offset : Nat) (buf : List UInt8) (fit : offset + buf.length ≤ MAX_FILE_SIZE) : TmpNode :=
  { node with
    data := copyInto node.data offset buf
    size := max node.size (offset + buf.length)
    fits := Nat.max_le.mpr ⟨node.fits, fit⟩ }

def resized (size : Nat) (fit : size ≤ MAX_FILE_SIZE) : TmpNode :=
  { node with
    data := if node.size < size then fillZero node.data node.size size else node.data
    size
    fits := fit }

/-- What a write past the end would uncover is zero. -/
def Blank (offset : Nat) : Prop := ∀ i < offset, node.size ≤ i → node.byte i = 0

instance (offset : Nat) : Decidable (node.Blank offset) :=
  inferInstanceAs (Decidable (∀ i < offset, node.size ≤ i → node.byte i = 0))

variable {node} {offset size : Nat} {buf : List UInt8}

theorem byte_written (fit : offset + buf.length ≤ MAX_FILE_SIZE) (i : Nat) :
    (node.written offset buf fit).byte i =
      if offset ≤ i ∧ i < offset + buf.length then buf.getD (i - offset) 0 else node.byte i := by
  by_cases inside : i < MAX_FILE_SIZE
  · simp only [byte, written, copyInto, dif_pos inside]
  · rw [if_neg (by omega)]
    simp only [byte, dif_neg inside]

theorem contents_written (fit : offset + buf.length ≤ MAX_FILE_SIZE) :
    (node.written offset buf fit).contents = store 0 node.contents offset buf ↔ node.Blank offset := by
  have size' : (node.written offset buf fit).size = max node.size (offset + buf.length) := rfl
  constructor
  · intro same i below behind
    have reads := congrArg (fun xs => xs.getD i 0) same
    simp only [getD_contents, getD_store, size', byte_written] at reads
    rwa [if_pos (by omega), if_neg (by omega), if_pos below, if_neg (by omega)] at reads
  · intro blank
    apply ext_getD 0
    · rw [length_contents, length_store, length_contents, size']
    · intro i inside
      rw [length_contents, size'] at inside
      rw [getD_contents, getD_store, getD_contents, size', if_pos inside, byte_written]
      by_cases front : i < offset
      · rw [if_neg (by omega), if_pos front]
        by_cases old : i < node.size
        · rw [if_pos old]
        · rw [if_neg old]
          exact blank i front (Nat.le_of_not_lt old)
      · rw [if_neg front]
        by_cases middle : i < offset + buf.length
        · rw [if_pos ⟨Nat.le_of_not_lt front, middle⟩, if_pos middle]
        · rw [if_neg (fun both => middle both.2), if_neg middle, if_pos (by omega)]

theorem contents_resized (fit : size ≤ MAX_FILE_SIZE) :
    (node.resized size fit).contents = resize 0 node.contents size := by
  have size' : (node.resized size fit).size = size := rfl
  apply ext_getD 0
  · rw [length_contents, length_resize, size']
  · intro i inside
    rw [length_contents, size'] at inside
    have room : i < MAX_FILE_SIZE := Nat.lt_of_lt_of_le inside fit
    rw [getD_contents, getD_resize, getD_contents, size', if_pos inside, if_pos inside]
    simp only [byte, resized, dif_pos room]
    by_cases grows : node.size < size
    · rw [if_pos grows]
      simp only [fillZero]
      by_cases old : i < node.size
      · rw [if_neg (by omega), if_pos old]
      · rw [if_pos ⟨Nat.le_of_not_lt old, inside⟩, if_neg old]
    · rw [if_neg grows, if_pos (by omega)]

end TmpNode

namespace TmpFs

/-- The inode number is that of a regular file. -/
structure File (fs : TmpFs) (inode : Nat) : Prop where
  known : inode < fs.nodeCount
  isFile : (fs.nodes (fs.slot known)).fileType = .file

variable {fs : TmpFs} {inode offset size len : Nat} {buf : List UInt8}

def File.node (file : fs.File inode) : TmpNode := fs.nodes (fs.slot file.known)

variable (file : fs.File inode)

include file

theorem File.setNode (node : TmpNode) (isFile : node.fileType = .file) :
    (fs.setNode (fs.slot file.known) node).File inode :=
  ⟨file.known, by simpa [TmpFs.setNode, slot] using isFile⟩

theorem File.setNode_node (node : TmpNode)
    (file' : (fs.setNode (fs.slot file.known) node).File inode) : file'.node = node :=
  update_self ..

theorem read_file : fs.read inode offset len = some (slice file.node.contents offset len) := by
  rw [read, dif_pos file.known, slice_contents]
  rw [if_neg (by simpa using file.isFile)]
  by_cases past : (fs.nodes (fs.slot file.known)).size ≤ offset
  · rw [if_pos past, File.node, Nat.sub_eq_zero_of_le past]
    simp
  · rw [if_neg past, File.node]

omit file

theorem writeEnd_eq (offset len : Nat) :
    writeEnd offset len = if offset + len ≤ MAX_FILE_SIZE then some (offset + len) else none := by
  have small : MAX_FILE_SIZE < WORD := by decide
  unfold writeEnd checkedAdd
  grind

include file

theorem write_file (fit : offset + buf.length ≤ MAX_FILE_SIZE) :
    fs.write inode offset buf =
      (some buf.length, fs.setNode (fs.slot file.known) (file.node.written offset buf fit)) := by
  have stop : writeEnd offset buf.length = some (offset + buf.length) := by
    rw [writeEnd_eq, if_pos fit]
  rw [write, dif_pos file.known]
  rw [if_neg (by simpa using file.isFile), dif_pos (by rw [stop]; rfl)]
  simp only [stop, Option.get_some, Nat.add_sub_cancel]
  rfl

theorem write_refused (long : ¬ offset + buf.length ≤ MAX_FILE_SIZE) :
    fs.write inode offset buf = (none, fs) := by
  rw [write, dif_pos file.known]
  rw [if_neg (by simpa using file.isFile), dif_neg (by rw [writeEnd_eq, if_neg long]; simp)]

theorem truncate_file :
    fs.truncate inode size = if fit : size ≤ MAX_FILE_SIZE then
        (true, fs.setNode (fs.slot file.known) (file.node.resized size fit))
      else (false, fs) := by
  rw [truncate, dif_pos file.known]
  rw [if_neg (by simpa using file.isFile)]
  rfl

end TmpFs

namespace TmpfsFile

/-- The calls on one file. -/
inductive Call where
  | write (offset : Nat) (buf : List UInt8)
  | truncate (size : Nat)
  | read (offset len : Nat)

/-- The table next to the bytes that the file should have. -/
structure Session where
  fs : TmpFs
  bytes : List UInt8

/-- A call on the file `inode`; the array follows the calls that succeed. -/
def step (inode : Nat) (s : Session) : Call → Option Session
  | .write offset buf =>
    match s.fs.write inode offset buf with
    | (some _, fs) => some ⟨fs, store 0 s.bytes offset buf⟩
    | (none, fs) => some { s with fs }
  | .truncate size =>
    match s.fs.truncate inode size with
    | (true, fs) => some ⟨fs, resize 0 s.bytes size⟩
    | (false, fs) => some { s with fs }
  | .read _ _ => some s

/-- Every read of the file returns the bytes of the array. -/
def Agrees (inode : Nat) (s : Session) : Prop :=
  ∀ offset len, s.fs.read inode offset len = some (slice s.bytes offset len)

/-- A write that fits and starts past the end finds zeroes behind the end. -/
def Filled (inode : Nat) (s : Session) : Call → Prop
  | .write offset buf =>
    offset + buf.length ≤ MAX_FILE_SIZE →
      ∀ known : inode < s.fs.nodeCount, (s.fs.nodes (s.fs.slot known)).Blank offset
  | _ => True

instance (inode : Nat) (s : Session) : (call : Call) → Decidable (Filled inode s call)
  | .write _ _ => inferInstanceAs (Decidable (_ → _))
  | .truncate _ => inferInstanceAs (Decidable True)
  | .read _ _ => inferInstanceAs (Decidable True)

variable {inode : Nat} {s : Session}

theorem agrees_iff (file : s.fs.File inode) : Agrees inode s ↔ file.node.contents = s.bytes := by
  constructor
  · intro agrees
    apply eq_of_slices
    intro offset len
    have read := agrees offset len
    rw [read_file file] at read
    exact Option.some.inj read
  · intro same offset len
    rw [read_file file, same]

theorem step_agrees (call : Call) (file : s.fs.File inode) (agrees : Agrees inode s) :
    ∃ s', step inode s call = some s' ∧ s'.fs.File inode ∧ (Agrees inode s' ↔ Filled inode s call) := by
  have same := (agrees_iff file).mp agrees
  cases call with
  | write offset buf =>
    by_cases fit : offset + buf.length ≤ MAX_FILE_SIZE
    · let s' : Session :=
        ⟨s.fs.setNode (s.fs.slot file.known) (file.node.written offset buf fit), store 0 s.bytes offset buf⟩
      have file' : s'.fs.File inode := file.setNode _ file.isFile
      refine ⟨s', ?_, file', ?_⟩
      · rw [step, write_file file fit]
      · rw [agrees_iff file', file.setNode_node _ file']
        show _ = store 0 s.bytes offset buf ↔ _
        rw [← same, contents_written]
        exact ⟨fun blank _ _ => blank, fun filled => filled fit file.known⟩
    · refine ⟨s, ?_, file, iff_of_true agrees fun fits => absurd fits fit⟩
      rw [step, write_refused file fit]
  | truncate size =>
    by_cases fit : size ≤ MAX_FILE_SIZE
    · let s' : Session :=
        ⟨s.fs.setNode (s.fs.slot file.known) (file.node.resized size fit), resize 0 s.bytes size⟩
      have file' : s'.fs.File inode := file.setNode _ file.isFile
      refine ⟨s', ?_, file', iff_of_true ?_ trivial⟩
      · rw [step, truncate_file file, dif_pos fit]
      · rw [agrees_iff file', file.setNode_node _ file', contents_resized, same]
    · refine ⟨s, ?_, file, iff_of_true agrees trivial⟩
      rw [step, truncate_file file, dif_neg fit]
  | read offset len => exact ⟨s, rfl, file, iff_of_true agrees trivial⟩

/-- Along any calls on a file, every read returns the bytes of the array exactly if
    no write that fits uncovers bytes other than zero behind the end. -/
theorem reads_refine_bytes (fs : TmpFs) (inode : Nat) (file : fs.File inode) (calls : List Call) :
    Always (step inode) (Agrees inode) calls ⟨fs, file.node.contents⟩ ↔
      Along (step inode) (Filled inode) calls ⟨fs, file.node.contents⟩ :=
  always_iff_along (fun s => s.fs.File inode)
    (fun _ call file agrees => step_agrees call file agrees) file ((agrees_iff file).mpr rfl)

def oneFile : TmpFs where
  nodes := update (update (fun _ => EMPTY_NODE) 0 { rootNode with firstChild := 1 })
    1 { EMPTY_NODE with name := str "f", fileType := .file, mode := DEFAULT_FILE_MODE }
  nodeCount := 2
  bound := by decide

/-- Cut to one byte, then written two bytes past the end. -/
def staleHole : List Call := [.write 0 [1, 2, 3], .truncate 1, .write 3 [4]]

/-- The hole reads as the bytes that were cut off. -/
theorem stale_bytes_reappear :
    ∃ s, exec (step 1) staleHole ⟨oneFile, []⟩ = some s ∧ s.bytes = [1, 0, 0, 4] ∧
      s.fs.read 1 0 4 = some [1, 2, 3, 4] := exists_of_any (by decide +kernel)

/-- Grown by `truncate` before the write past the old end. -/
def filledHole : List Call := [.write 0 [1, 2, 3], .truncate 1, .truncate 3, .write 3 [4], .read 0 4]

theorem reads_refine_bytes_filledHole :
    Always (step 1) (Agrees 1) filledHole ⟨oneFile, []⟩ := by
  have file : oneFile.File 1 := ⟨by decide, by decide +kernel⟩
  have filled : Along (step 1) (Filled 1) filledHole ⟨oneFile, []⟩ := by decide +kernel
  have refines := reads_refine_bytes oneFile 1 file filledHole
  exact refines.mpr filled

end TmpfsFile

end Zenus.Fs
