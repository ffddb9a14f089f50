/-! # The interface of a file system

A file system is the record of its operations over the state they act on.  A
string is the list of its UTF-8 bytes.  An operation that fills a buffer returns
the bytes it puts there, and one that changes the state returns the new state.
-/

namespace Zenus.Fs

abbrev Str := List UInt8

def str (text : String) : Str := text.toUTF8.toList

inductive FileType where
  | none
  | file
  | directory
  | blockDevice
  | charDevice
  | symlink
  deriving DecidableEq, Repr

structure FileStat where
  size : Nat
  fileType : FileType
  inode : Nat
  blocks : Nat
  uid : Nat
  gid : Nat
  mode : Nat
  deriving DecidableEq, Repr

structure DirEntry where
  name : Str
  fileType : FileType
  inode : Nat
  deriving DecidableEq, Repr

def DEFAULT_FILE_MODE : Nat := 0x81A4
def DEFAULT_DIR_MODE : Nat := 0x41ED

/-- The first entry of a listing with the given name. -/
def lookupIn (entries : List DirEntry) (name : Str) : Option Nat :=
  (entries.find? fun e => e.name == name).map DirEntry.inode

/-- The operations of a file system whose state is a `σ`; the defaults refuse. -/
structure FileSystem (σ : Type) where
  rootInode : Nat
  read : σ → (inode offset len : Nat) → Option (List UInt8)
  write : σ → (inode offset : Nat) → (buf : List UInt8) → Option Nat × σ
  readDir : σ → (inode : Nat) → List DirEntry
  stat : σ → (inode : Nat) → FileStat
  create : σ → (parentInode : Nat) → (name : Str) → FileType → Option Nat × σ
  unlink : σ → (parentInode : Nat) → (name : Str) → Bool × σ
  lookup : σ → (parentInode : Nat) → (name : Str) → Option Nat :=
    fun s parentInode name => lookupIn (readDir s parentInode) name
  chmod : σ → (inode mode : Nat) → Bool × σ := fun s _ _ => (false, s)
  chown : σ → (inode uid gid : Nat) → Bool × σ := fun s _ _ _ => (false, s)
  symlink : σ → (parentInode : Nat) → (name target : Str) → Option Nat × σ :=
    fun s _ _ _ => (none, s)
  readlink : σ → (inode len : Nat) → Option (List UInt8) := fun _ _ _ => none
  truncate : σ → (inode size : Nat) → Bool × σ := fun s _ _ => (false, s)

/-- What `core::str::from_utf8` accepts. -/
def utf8 : Str → Bool
  | [] => true
  | a :: rest =>
    if a < 0x80 then utf8 rest
    else match rest with
      | [] => false
      | b :: rest =>
        if 0xC2 ≤ a ∧ a ≤ 0xDF ∧ tail b then utf8 rest
        else match rest with
          | [] => false
          | c :: rest =>
            if three a b ∧ tail c then utf8 rest
            else match rest with
              | [] => false
              | d :: rest => four a b && tail c && tail d && utf8 rest
where
  tail (b : UInt8) : Bool := 0x80 ≤ b && b ≤ 0xBF
  /-- The first two bytes of a three-byte character. -/
  three (a b : UInt8) : Bool :=
    (a == 0xE0 && 0xA0 ≤ b && b ≤ 0xBF) || (0xE1 ≤ a && a ≤ 0xEC && tail b) ||
      (a == 0xED && 0x80 ≤ b && b ≤ 0x9F) || (0xEE ≤ a && a ≤ 0xEF && tail b)
  /-- The first two bytes of a four-byte character. -/
  four (a b : UInt8) : Bool :=
    (a == 0xF0 && 0x90 ≤ b && b ≤ 0xBF) || (0xF1 ≤ a && a ≤ 0xF3 && tail b) ||
      (a == 0xF4 && 0x80 ≤ b && b ≤ 0x8F)

end Zenus.Fs
