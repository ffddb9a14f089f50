import Zenus.Lib.Word

/-! # The sector cache in front of the block devices

`crates/zenus-fs/src/block_cache.rs`, together with the two calls of `devfs.rs` it
makes.  The cache is one table of 512 sectors for all devices.  A sector is looked
up in a window of four slots that its device and block number hash to; a sector
that is not there is brought in over a victim, and dirty sectors are written when
they are evicted or flushed.

The devices are what the registered drivers see: their contents, and the sectors a
driver refuses to read or write.  `past` keeps the contents before every sector
write, newest first, so that a crash in the middle of a call can be described.
-/

namespace Zenus.Fs

open Lib.Word

def CACHE_SIZE : Nat := 512
def SECTOR_SIZE : Nat := 512

def WAYS : Nat := 4

abbrev Sector := Fin SECTOR_SIZE → UInt8

abbrev Key := Nat × Nat

namespace Sector

/-- `[0; SECTOR_SIZE]`. -/
def zero : Sector := fun _ => 0

def ofBytes (buf : List UInt8) : Sector := fun i => buf.getD i 0

def bytes (data : Sector) : List UInt8 := List.ofFn data

/-- `data[..len].copy_from_slice(&buf[..len])` for a buffer of any length. -/
def copyFrom (data : Sector) (buf : List UInt8) : Sector :=
  fun i => if i.val < min buf.length SECTOR_SIZE then buf.getD i 0 else data i

/-- `buf[..len].copy_from_slice(&data[..len])` for a buffer of any length. -/
def copyTo (data : Sector) (buf : List UInt8) : List UInt8 :=
  let len := min buf.length SECTOR_SIZE
  data.bytes.take len ++ buf.drop len

theorem ofBytes_bytes (data : Sector) : ofBytes data.bytes = data := by
  funext i
  simp [ofBytes, bytes]

theorem copyFrom_bytes (old data : Sector) : old.copyFrom data.bytes = data := by
  funext i
  have inside : i.val < SECTOR_SIZE := i.isLt
  simp [copyFrom, bytes, inside]

theorem copyTo_full (data : Sector) {buf : List UInt8} (full : buf.length = SECTOR_SIZE) :
    data.copyTo buf = data.bytes := by
  have whole : data.bytes.take SECTOR_SIZE = data.bytes :=
    List.take_of_length_le (by simp [bytes])
  simp [copyTo, full, whole]

end Sector

/-! ## Devices -/

structure Disk where
  data : Key → Sector
  past : List (Key → Sector) := []
  readable : Key → Bool := fun _ => true
  writable : Key → Bool := fun _ => true

namespace Disk

/-- What a crash can leave: the contents now and before each write so far. -/
def states (d : Disk) : List (Key → Sector) := d.data :: d.past

/-- No driver ever refuses. -/
structure Works (d : Disk) : Prop where
  readable : ∀ k, d.readable k = true
  writable : ∀ k, d.writable k = true

end Disk

def blockDeviceRead (d : Disk) (dev block : Nat) : Option Sector :=
  if d.readable (dev, block) then some (d.data (dev, block)) else none

def blockDeviceWrite (d : Disk) (dev block : Nat) (buf : Sector) : Bool × Disk :=
  if d.writable (dev, block) then
    (true, { d with data := Function.update d.data (dev, block) buf, past := d.data :: d.past })
  else (false, d)

/-! ## The cache -/

def hash (dev block : Nat) : Nat :=
  let h := wadd (wmul dev 0x9E3779B97F4A7C15) block
  (h ^^^ (h >>> 16) ^^^ (h >>> 32) ^^^ (h >>> 48)) &&& (CACHE_SIZE - 1)

structure CacheEntry where
  devId : Nat
  block : Nat
  dirty : Bool
  valid : Bool
  data : Sector

structure BlockCache where
  entries : Nat → CacheEntry
  hits : Nat
  misses : Nat

/-- The slots probed for a block, in probing order. -/
def window (dev block : Nat) : List Nat :=
  (List.range WAYS).map fun i => (hash dev block + i) &&& (CACHE_SIZE - 1)

namespace BlockCache

def new : BlockCache :=
  { entries := fun _ => { devId := 0, block := 0, dirty := false, valid := false
                          data := Sector.zero }
    hits := 0
    misses := 0 }

def setEntry (c : BlockCache) (idx : Nat) (e : CacheEntry) : BlockCache :=
  { c with entries := Function.update c.entries idx e }

def findEntry (c : BlockCache) (dev block : Nat) : Option Nat :=
  (window dev block).find? fun idx =>
    (c.entries idx).valid && (c.entries idx).devId == dev && (c.entries idx).block == block

/-- The slot to reuse: an empty one of the window, a clean one of the window, any
    empty or clean one of the table, and otherwise the window's first. -/
def evictOne (c : BlockCache) (dev block : Nat) : Option Nat :=
  ((window dev block).find? fun idx => !(c.entries idx).valid) <|>
  ((window dev block).find? fun idx => !(c.entries idx).dirty) <|>
  ((List.range CACHE_SIZE).find? fun idx => !(c.entries idx).valid || !(c.entries idx).dirty) <|>
  some (hash dev block)

end BlockCache

/-- The cache and the devices behind it. -/
structure Store where
  cache : BlockCache
  disk : Disk

namespace Store

def cold (disk : Disk) : Store := ⟨BlockCache.new, disk⟩

def setEntry (s : Store) (idx : Nat) (e : CacheEntry) : Store :=
  { s with cache := s.cache.setEntry idx e }

def flushEntry (s : Store) (idx : Nat) : Bool × Store :=
  let e := s.cache.entries idx
  if e.dirty then
    match blockDeviceWrite s.disk e.devId e.block e.data with
    | (true, disk) => (true, { s with disk }.setEntry idx { e with dirty := false })
    | (false, disk) => (false, { s with disk })
  else (true, s)

/-- The miss path shared by `read_block` and `write_block`: evict a slot, flush it,
    read the sector from the device and install it clean.  The slot is returned. -/
def fetch (s : Store) (dev block : Nat) : Option Nat × Store :=
  match s.cache.evictOne dev block with
  | none => (none, s)
  | some idx =>
    match s.flushEntry idx with
    | (false, s) => (none, s)
    | (true, s) =>
      match blockDeviceRead s.disk dev block with
      | none => (none, s)
      | some data =>
        (some idx, s.setEntry idx { devId := dev, block, dirty := false, valid := true, data })

/-- Whether the read succeeded, the caller's buffer afterwards, and the new state. -/
def readBlock (s : Store) (dev block : Nat) (buf : List UInt8) : Bool × List UInt8 × Store :=
  match s.cache.findEntry dev block with
  | some idx =>
    (true, (s.cache.entries idx).data.copyTo buf,
      { s with cache := { s.cache with hits := s.cache.hits + 1 } })
  | none =>
    match { s with cache := { s.cache with misses := s.cache.misses + 1 } }.fetch dev block with
    | (none, s) => (false, buf, s)
    | (some idx, s) => (true, (s.cache.entries idx).data.copyTo buf, s)

/-- Overwrite a prefix of a cached sector and mark it dirty. -/
def overwrite (s : Store) (idx : Nat) (buf : List UInt8) : Store :=
  let e := s.cache.entries idx
  s.setEntry idx { e with data := e.data.copyFrom buf, dirty := true }

def writeBlock (s : Store) (dev block : Nat) (buf : List UInt8) : Bool × Store :=
  match s.cache.findEntry dev block with
  | some idx => (true, s.overwrite idx buf)
  | none =>
    match s.fetch dev block with
    | (none, s) => (false, s)
    | (some idx, s) => (true, s.overwrite idx buf)

/-- One iteration of `flush_all`. -/
def flushStep (acc : Bool × Store) (idx : Nat) : Bool × Store :=
  let e := acc.2.cache.entries idx
  if e.valid && e.dirty then
    match acc.2.flushEntry idx with
    | (written, s) => (acc.1 && written, s)
  else acc

def flushAll (s : Store) : Bool × Store := (List.range CACHE_SIZE).foldl flushStep (true, s)

def invalidate (s : Store) (dev block : Nat) : Bool × Store :=
  match s.cache.findEntry dev block with
  | some idx =>
    (true, s.setEntry idx { s.cache.entries idx with valid := false, dirty := false })
  | none => (false, s)

end Store

end Zenus.Fs
