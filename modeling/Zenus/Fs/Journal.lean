import Zenus.Fs.BlockCache

/-! # The redo journal

`crates/zenus-fs/src/journal.rs`.  A journal is a header sector followed by data
sectors on one device.  A transaction is opened in the header, collects redo images
in the data sectors, and is committed: the images are copied to their targets, then
the header is marked committed, then cleared.  After a crash `journal_replay`
repeats the copying if the header it finds is marked committed.

All sector traffic goes through the sector cache.  The write barrier that the
platform layer installs is a parameter: what it answers, in the state it is called
in.
-/

namespace Zenus.Fs

open Lib.Word List

/-! ## The header sector -/

namespace Sector

def byte (data : Sector) (i : Nat) : Nat :=
  if h : i < SECTOR_SIZE then (data ⟨i, h⟩).toNat else 0

/-- `u32::from_ne_bytes` of four bytes of the sector, least significant first. -/
def u32At (data : Sector) (off : Nat) : Nat :=
  data.byte off + 256 * data.byte (off + 1) + 65536 * data.byte (off + 2) +
    16777216 * data.byte (off + 3)

/-- `data[off..off + 4].copy_from_slice(&w.to_ne_bytes())`. -/
def putU32 (data : Sector) (off w : Nat) : Sector := fun i =>
  if off ≤ i.val ∧ i.val < off + 4 then UInt8.ofNat (w / 256 ^ (i.val - off)) else data i

theorem u32At_lt (data : Sector) (off : Nat) : data.u32At off < 2 ^ 32 := by
  have small : ∀ i, data.byte i < 256 := by
    intro i
    unfold byte
    split
    · exact UInt8.toNat_lt _
    · decide
  have b0 := small off
  have b1 := small (off + 1)
  have b2 := small (off + 2)
  have b3 := small (off + 3)
  simp only [u32At]
  omega

variable {data : Sector} {off j w i off' : Nat}

theorem byte_putU32 (field : j < 4) (inside : off + 4 ≤ SECTOR_SIZE) :
    (data.putU32 off w).byte (off + j) = w / 256 ^ j % 256 := by
  have here : off + j < SECTOR_SIZE := by omega
  have within : off ≤ off + j ∧ off + j < off + 4 := by omega
  rw [byte, dif_pos here, putU32, if_pos within, Nat.add_sub_cancel_left]
  exact UInt8.toNat_ofNat'

theorem byte_putU32_other (apart : i < off ∨ off + 4 ≤ i) : (data.putU32 off w).byte i = data.byte i := by
  have outside : ¬ (off ≤ i ∧ i < off + 4) := by omega
  simp only [byte, putU32, if_neg outside]

theorem u32At_putU32 (inside : off + 4 ≤ SECTOR_SIZE) : (data.putU32 off w).u32At off = w % 2 ^ 32 := by
  have first : (data.putU32 off w).byte off = w % 256 := by
    simpa using @byte_putU32 data off 0 w (by omega) inside
  rw [u32At, first, byte_putU32 (by omega) inside, byte_putU32 (by omega) inside,
    byte_putU32 (by omega) inside]
  omega

theorem u32At_putU32_other
    (apart : off' + 4 ≤ off ∨ off + 4 ≤ off') : (data.putU32 off w).u32At off' = data.u32At off' := by
  simp only [u32At]
  rw [byte_putU32_other (by omega), byte_putU32_other (by omega), byte_putU32_other (by omega),
    byte_putU32_other (by omega)]

end Sector

namespace Journal

open Sector

def JOURNAL_MAGIC : Nat := 0x4A524E4C
def MAX_ENTRIES : Nat := 123
def JNL_STATE_EMPTY : Nat := 0
def JNL_STATE_ACTIVE : Nat := 1
def JNL_STATE_COMMITTED : Nat := 2

structure JournalHeader where
  magic : Nat
  sequence : Nat
  numEntries : Nat
  state : Nat
  reserved : Nat
  targets : Nat → Nat

/-- The byte offset of a target in the header sector. -/
def targetOff (i : Nat) : Nat := 20 + i * 4

def decodeHeader (buf : Sector) : JournalHeader where
  magic := buf.u32At 0
  sequence := buf.u32At 4
  numEntries := buf.u32At 8
  state := buf.u32At 12
  reserved := buf.u32At 16
  targets i := if targetOff i + 4 ≤ SECTOR_SIZE then buf.u32At (targetOff i) else 0

/-- The first `n` iterations of the loop that stores the targets. -/
def encodeTargets (targets : Nat → Nat) (n : Nat) (buf : Sector) : Sector :=
  (List.range n).foldl (fun buf i =>
    if targetOff i + 4 ≤ SECTOR_SIZE then buf.putU32 (targetOff i) (targets i) else buf) buf

def encodeHeader (hdr : JournalHeader) : Sector :=
  encodeTargets hdr.targets MAX_ENTRIES
    (((((Sector.zero.putU32 0 hdr.magic).putU32 4 hdr.sequence).putU32 8 hdr.numEntries).putU32 12
      hdr.state).putU32 16 hdr.reserved)

/-! ## Sizes -/

def capacityForBlocks (numBlocks : Nat) : Nat := min MAX_ENTRIES (numBlocks - 1)

def dataBlockFor (startBlock numBlocks idx : Nat) : Option Nat :=
  if idx ≥ capacityForBlocks numBlocks then none else some (wadd (wadd startBlock 1) idx)

def replayEntryLimit (numEntries numBlocks : Nat) : Nat :=
  min numEntries (min MAX_ENTRIES (capacityForBlocks numBlocks))

/-! ## The calls -/

/-- The `JNL_*` statics. -/
structure JournalState where
  devId : Nat
  startBlock : Nat
  numBlocks : Nat
  sequence : Nat
  active : Bool

def JournalState.unset : JournalState :=
  { devId := 0xFF, startBlock := 0, numBlocks := 0, sequence := 0, active := false }

structure System where
  jnl : JournalState
  store : Store

/-- `bc_read` into a zeroed sector buffer. -/
def bcRead (s : Store) (dev block : Nat) : Option Sector × Store :=
  match s.readBlock dev block Sector.zero.bytes with
  | (true, buf, s) => (some (Sector.ofBytes buf), s)
  | (false, _, s) => (none, s)

/-- `bc_write` of a whole sector. -/
def bcWrite (s : Store) (dev block : Nat) (data : Sector) : Bool × Store :=
  s.writeBlock dev block data.bytes

def readHeader (j : JournalState) (s : Store) : Option JournalHeader × Store :=
  match bcRead s j.devId j.startBlock with
  | (none, s) => (none, s)
  | (some buf, s) =>
    if buf.u32At 0 = JOURNAL_MAGIC then (some (decodeHeader buf), s) else (none, s)

def writeHeader (j : JournalState) (s : Store) (hdr : JournalHeader) : Bool × Store :=
  bcWrite s j.devId j.startBlock (encodeHeader hdr)

def journalInit (w : System) (devId startBlock numBlocks : Nat) : Bool × System :=
  let jnl : JournalState := { devId, startBlock, numBlocks, sequence := 0, active := false }
  let hdr : JournalHeader :=
    { magic := JOURNAL_MAGIC, sequence := 0, numEntries := 0, state := JNL_STATE_EMPTY
      reserved := 0, targets := fun _ => 0 }
  match bcWrite w.store devId startBlock (encodeHeader hdr) with
  | (false, s) => (false, ⟨jnl, (s.invalidate devId startBlock).2⟩)
  | (true, s) =>
    match s.flushAll with
    | (ok, s) => (ok, ⟨jnl, (s.invalidate devId startBlock).2⟩)

def journalBegin (w : System) : Bool × System :=
  if w.jnl.devId = 0xFF then (false, w)
  else if w.jnl.active then (false, w)
  else
    let jnl := { w.jnl with sequence := (w.jnl.sequence + 1) % 2 ^ 32 }
    match readHeader jnl w.store with
    | (none, s) => (false, ⟨jnl, s⟩)
    | (some hdr, s) =>
      match writeHeader jnl s { hdr with state := JNL_STATE_ACTIVE } with
      | (false, s) => (false, ⟨jnl, s⟩)
      | (true, s) =>
        match s.flushAll with
        | (false, s) => (false, ⟨jnl, s⟩)
        | (true, s) => (true, ⟨{ jnl with active := true }, s⟩)

/-- The redo image of `journal_write`: the data, cut or padded to a sector. -/
def image (data : List UInt8) : Sector := Sector.zero.copyFrom data

def journalWrite (w : System) (targetBlock : Nat) (data : List UInt8) : Bool × System :=
  if !w.jnl.active || w.jnl.devId == 0xFF then (false, w)
  else
    match readHeader w.jnl w.store with
    | (none, s) => (false, { w with store := s })
    | (some hdr, s) =>
      match dataBlockFor w.jnl.startBlock w.jnl.numBlocks hdr.numEntries with
      | none => (false, { w with store := s })
      | some dataBlock =>
        match bcWrite s w.jnl.devId dataBlock (image data) with
        | (false, s) => (false, { w with store := s })
        | (true, s) =>
          if targetBlock ≥ 2 ^ 32 then (false, { w with store := s })
          else
            let hdr := { hdr with
              targets := Function.update hdr.targets hdr.numEntries targetBlock
              numEntries := hdr.numEntries + 1 }
            match writeHeader w.jnl s hdr with
            | (false, s) => (false, { w with store := s })
            | (true, s) => (true, { w with store := s.flushAll.2 })

/-- Phase 1 of the commit: copy the redo images to their targets, entry 0 first. -/
def commitEntries (j : JournalState) (hdr : JournalHeader) : List Nat → Store → Bool × Store
  | [], s => (true, s)
  | i :: rest, s =>
    if hdr.targets i = 0 then commitEntries j hdr rest s
    else
      match dataBlockFor j.startBlock j.numBlocks i with
      | none => (false, s)
      | some dataBlock =>
        match bcRead s j.devId dataBlock with
        | (none, s) => (false, s)
        | (some data, s) =>
          match bcWrite s j.devId (hdr.targets i) data with
          | (false, s) => (false, s)
          | (true, s) => commitEntries j hdr rest s

/-- Phase 3: clear the header and close the transaction. -/
def clearHeader (w : System) : Bool × System :=
  match readHeader w.jnl w.store with
  | (none, s) => (false, { w with store := s })
  | (some hdr, s) =>
    let s := (writeHeader w.jnl s { hdr with numEntries := 0, state := JNL_STATE_EMPTY }).2
    (true, ⟨{ w.jnl with active := false }, s.flushAll.2⟩)

/-- Phase 2, and phase 3 behind its barrier: mark the header committed. -/
def markCommitted (deviceFlush : Store → Bool) (w : System) : Bool × System :=
  match readHeader w.jnl w.store with
  | (none, s) => (false, { w with store := s })
  | (some hdr, s) =>
    match writeHeader w.jnl s { hdr with state := JNL_STATE_COMMITTED } with
    | (false, s) => (false, { w with store := s })
    | (true, s) =>
      let s := s.flushAll.2
      if deviceFlush s then clearHeader { w with store := s } else (false, { w with store := s })

def journalCommit (deviceFlush : Store → Bool) (w : System) : Bool × System :=
  if !w.jnl.active || w.jnl.devId == 0xFF then (false, w)
  else
    match readHeader w.jnl w.store with
    | (none, s) => (false, { w with store := s })
    | (some hdr, s) =>
      let limit := replayEntryLimit hdr.numEntries w.jnl.numBlocks
      match commitEntries w.jnl hdr (List.range limit) s with
      | (false, s) => (false, { w with store := s })
      | (true, s) =>
        let s := s.flushAll.2
        if deviceFlush s then markCommitted deviceFlush { w with store := s }
        else (false, { w with store := s })

/-- The copy loop of the replay: a data block that cannot be read is skipped. -/
def replayEntries (devId startBlock numBlocks : Nat) (buf : Sector) : List Nat → Store → Store
  | [], s => s
  | i :: rest, s =>
    let target := buf.u32At (targetOff i)
    if target = 0 then replayEntries devId startBlock numBlocks buf rest s
    else
      match dataBlockFor startBlock numBlocks i with
      | none => s
      | some dataBlock =>
        match bcRead s devId dataBlock with
        | (none, s) => replayEntries devId startBlock numBlocks buf rest s
        | (some data, s) =>
          replayEntries devId startBlock numBlocks buf rest (bcWrite s devId target data).2

/-- Copying, flushing and retiring the header of a committed journal. -/
def redo (devId startBlock numBlocks limit : Nat) (buf : Sector) (s : Store) : Store :=
  let s := (replayEntries devId startBlock numBlocks buf (List.range limit) s).flushAll.2
  let s := (bcWrite s devId startBlock (buf.putU32 12 JNL_STATE_EMPTY)).2
  (s.flushAll.2.invalidate devId startBlock).2

def journalReplay (w : System) (devId startBlock numBlocks : Nat) : Bool × System :=
  match bcRead w.store devId startBlock with
  | (none, s) => (false, { w with store := s })
  | (some buf, s) =>
    if buf.u32At 0 ≠ JOURNAL_MAGIC then (false, { w with store := s })
    else if buf.u32At 12 ≠ JNL_STATE_COMMITTED then (true, { w with store := s })
    else
      let limit := replayEntryLimit (buf.u32At 8) numBlocks
      if limit = 0 then (true, { w with store := s })
      else
        (true, ⟨{ devId, startBlock, numBlocks, sequence := 0, active := false },
          redo devId startBlock numBlocks limit buf s⟩)

/-! ## What a written header reads as -/

variable (targets : Nat → Nat) {n off i : Nat}

theorem encodeTargets_succ (n : Nat) (buf : Sector) :
    encodeTargets targets (n + 1) buf = if targetOff n + 4 ≤ SECTOR_SIZE then
        (encodeTargets targets n buf).putU32 (targetOff n) (targets n)
      else encodeTargets targets n buf := by
  simp only [encodeTargets, range_succ, foldl_append, foldl_cons, foldl_nil]

theorem encodeTargets_fixed (buf : Sector) (fixed : off ≤ 16) :
    (encodeTargets targets n buf).u32At off = buf.u32At off := by
  induction n with
  | zero => rfl
  | succ n ih =>
    rw [encodeTargets_succ]
    split
    · have apart : off + 4 ≤ targetOff n := by simp only [targetOff]; omega
      exact (u32At_putU32_other (.inl apart)).trans ih
    · exact ih

theorem encodeTargets_target (buf : Sector) (stored : i < n) (room : n ≤ MAX_ENTRIES) :
    (encodeTargets targets n buf).u32At (targetOff i) = targets i % 2 ^ 32 := by
  induction n with
  | zero => exact absurd stored (Nat.not_lt_zero i)
  | succ n ih =>
    have inside : targetOff n + 4 ≤ SECTOR_SIZE := by
      simp only [targetOff, SECTOR_SIZE, MAX_ENTRIES] at *
      omega
    rw [encodeTargets_succ, if_pos inside]
    cases Nat.lt_succ_iff_lt_or_eq.mp stored with
    | inl before =>
      have apart : targetOff i + 4 ≤ targetOff n := by simp only [targetOff]; omega
      exact (u32At_putU32_other (.inl apart)).trans (ih before (by omega))
    | inr last =>
      subst last
      exact u32At_putU32 inside

theorem encodeHeader_words (hdr : JournalHeader) :
    (encodeHeader hdr).u32At 0 = hdr.magic % 2 ^ 32 ∧ (encodeHeader hdr).u32At 8 = hdr.numEntries % 2 ^ 32 ∧
      (encodeHeader hdr).u32At 12 = hdr.state % 2 ^ 32 ∧
      ∀ i < MAX_ENTRIES, (encodeHeader hdr).u32At (targetOff i) = hdr.targets i % 2 ^ 32 := by
  have size : SECTOR_SIZE = 512 := rfl
  refine ⟨?_, ?_, ?_, ?_⟩
  · rw [encodeHeader, encodeTargets_fixed _ _ (by omega), u32At_putU32_other (by omega),
      u32At_putU32_other (by omega), u32At_putU32_other (by omega), u32At_putU32_other (by omega),
      u32At_putU32 (by omega)]
  · rw [encodeHeader, encodeTargets_fixed _ _ (by omega), u32At_putU32_other (by omega),
      u32At_putU32_other (by omega), u32At_putU32 (by omega)]
  · rw [encodeHeader, encodeTargets_fixed _ _ (by omega), u32At_putU32_other (by omega),
      u32At_putU32 (by omega)]
  · exact fun i stored => encodeTargets_target hdr.targets _ stored le_rfl

/-- A header that is stored is read back, with its words cut to 32 bits. -/
theorem header_round_trip (hdr : JournalHeader) :
    let back := decodeHeader (encodeHeader hdr)
    back.magic = hdr.magic % 2 ^ 32 ∧ back.sequence = hdr.sequence % 2 ^ 32 ∧
      back.numEntries = hdr.numEntries % 2 ^ 32 ∧ back.state = hdr.state % 2 ^ 32 ∧
      back.reserved = hdr.reserved % 2 ^ 32 ∧ ∀ i < MAX_ENTRIES, back.targets i = hdr.targets i % 2 ^ 32 := by
  have size : SECTOR_SIZE = 512 := rfl
  obtain ⟨magic, entries, state, targets⟩ := encodeHeader_words hdr
  refine ⟨magic, ?_, entries, state, ?_, fun i stored => (if_pos ?_).trans (targets i stored)⟩
  · simp [decodeHeader, encodeHeader, encodeTargets_fixed, u32At_putU32_other, u32At_putU32, size]
  · simp [decodeHeader, encodeHeader, encodeTargets_fixed, u32At_putU32, size]
  · have : MAX_ENTRIES = 123 := rfl
    rw [targetOff]
    omega

end Journal

end Zenus.Fs
