import Zenus.Fs.CacheCrash

/-! # What the journal's calls do to the sectors

The journal calls are described against the map the sector cache shows, as long as
no device refuses.  Between two calls nothing is dirty.  A header that lists `n`
entries, together with the first `n` data sectors, stands for a list of targets and
images; begin, write and commit rewrite the header, extend that list, and install it.
-/

namespace Zenus.Fs.Journal

open Sector Lib.Word List Nat
open Function (update update_of_ne update_self)

/-- A journal's place on its device. -/
structure Place where
  dev : Nat
  start : Nat
  num : Nat
  fits : start + capacityForBlocks num < WORD

namespace Place

def header (p : Place) : Key := (p.dev, p.start)

def data (p : Place) (i : Nat) : Key := (p.dev, p.start + 1 + i)

def Holds (p : Place) (k : Key) : Prop :=
  k.1 = p.dev ∧ p.start ≤ k.2 ∧ k.2 ≤ p.start + capacityForBlocks p.num

instance (p : Place) (k : Key) : Decidable (p.Holds k) := inferInstanceAs (Decidable (_ ∧ _))

/-- The statics describe this journal. -/
structure On (p : Place) (j : JournalState) : Prop where
  dev : j.devId = p.dev
  start : j.startBlock = p.start
  num : j.numBlocks = p.num

variable (p : Place) {i j : Nat}

theorem holds_header : p.Holds p.header := ⟨rfl, le_rfl, le_add_right _ _⟩

theorem holds_data (inside : i < capacityForBlocks p.num) : p.Holds (p.data i) := by
  refine ⟨rfl, ?_, ?_⟩ <;> simp only [data] <;> omega

theorem data_ne_header : p.data i ≠ p.header := by
  simp only [header, data, ne_eq, Prod.mk.injEq, true_and]
  omega

theorem data_inj (same : p.data i = p.data j) : i = j := by
  simp only [data, Prod.mk.injEq, true_and] at same
  omega

theorem dataBlockFor_eq (inside : i < capacityForBlocks p.num) :
    dataBlockFor p.start p.num i = some (p.start + 1 + i) := by
  have fits := p.fits
  have first : wadd p.start 1 = p.start + 1 := wadd_of_lt (by omega)
  rw [dataBlockFor, if_neg (by omega), first, wadd_of_lt (by omega)]

end Place

variable {p : Place} {j : JournalState} {s : Store} {A B d : Key → Sector} {P Q : Finset Key}
variable {target : Nat} {w w' : System}
  {S : (Key → Sector) → Prop} {st i st' : Nat} {es : List (Nat × Sector)}

theorem capacity_le_max (num : Nat) : capacityForBlocks num ≤ MAX_ENTRIES := min_le_left _ _

/-! ## The header -/

section

variable (guarded : Guarded s A B P S) (sparse : Sparse P p.header) (on : p.On j)

include guarded sparse on

theorem read_header :
    ∃ s', readHeader j s =
        (if (A p.header).u32At 0 = JOURNAL_MAGIC then some (decodeHeader (A p.header)) else none, s') ∧
      Guarded s' A B P S := by
  obtain ⟨s', run, guarded'⟩ := guarded.read sparse
  refine ⟨s', ?_, guarded'⟩
  simp only [readHeader, on.dev, on.start, run]
  split <;> simp_all [Place.header]

theorem read_magic (magic : (A p.header).u32At 0 = JOURNAL_MAGIC) :
    ∃ s', readHeader j s = (some (decodeHeader (A p.header)), s') ∧ Guarded s' A B P S := by
  obtain ⟨s', run, guarded'⟩ := read_header guarded sparse on
  exact ⟨s', by rw [run, if_pos magic], guarded'⟩

theorem write_header (hdr : JournalHeader) :
    ∃ s', writeHeader j s hdr = (true, s') ∧
      Guarded s' (update A p.header (encodeHeader hdr)) B (insert p.header P) S := by
  rw [writeHeader, on.dev, on.start]
  exact guarded.write sparse (encodeHeader hdr)

end

/-- The header names the entries `es`, whose images are in the data sectors. -/
structure Logged (p : Place) (A : Key → Sector) (state : Nat) (es : List (Nat × Sector)) : Prop where
  magic : (A p.header).u32At 0 = JOURNAL_MAGIC
  state : (A p.header).u32At 12 = state
  entries : (A p.header).u32At 8 = es.length
  log : (List.range es.length).map (fun i => ((A p.header).u32At (targetOff i), A (p.data i))) = es
  room : es.length ≤ capacityForBlocks p.num

variable (logged : Logged p A st es) {buf : Sector} {k : Key}

include logged

theorem Logged.congr (same : ∀ k, p.Holds k → d k = A k) : Logged p d st es := by
  have header := same p.header p.holds_header
  refine ⟨header ▸ logged.magic, header ▸ logged.state, header ▸ logged.entries, ?_, logged.room⟩
  refine Eq.trans (map_congr_left ?_) logged.log
  intro i inside
  have inside := lt_of_lt_of_le (mem_range.mp inside) logged.room
  rw [header, same _ (p.holds_data inside)]

theorem Logged.limit : replayEntryLimit ((A p.header).u32At 8) p.num = es.length := by
  have room := logged.room
  have most := capacity_le_max p.num
  simp only [replayEntryLimit, logged.entries]
  omega

omit logged

theorem decode_target (inside : i < MAX_ENTRIES) :
    (decodeHeader buf).targets i = buf.u32At (targetOff i) := by
  have fits : targetOff i + 4 ≤ SECTOR_SIZE := by
    simp only [targetOff, SECTOR_SIZE, MAX_ENTRIES] at *
    omega
  exact if_pos fits

def restated (p : Place) (A : Key → Sector) (state : Nat) : Key → Sector :=
  update A p.header (encodeHeader { decodeHeader (A p.header) with state })

def cleared (p : Place) (A : Key → Sector) : Key → Sector :=
  update A p.header
    (encodeHeader { decodeHeader (A p.header) with numEntries := 0, state := JNL_STATE_EMPTY })

def appended (p : Place) (A : Key → Sector) (n target : Nat) (x : Sector) : Key → Sector :=
  update (update A (p.data n) x) p.header (encodeHeader
    { decodeHeader (A p.header) with
      targets := update (decodeHeader (A p.header)).targets n target
      numEntries := n + 1 })

include logged

theorem Logged.restated (small : st' < 2 ^ 32) : Logged p (restated p A st') st' es := by
  obtain ⟨magic, entries, state, targets⟩ :=
    encodeHeader_words { decodeHeader (A p.header) with state := st' }
  have here : Journal.restated p A st' p.header = _ := update_self _ _ _
  refine ⟨?_, ?_, ?_, ?_, logged.room⟩
  · rw [here, magic]
    exact (mod_eq_of_lt (u32At_lt _ _)).trans logged.magic
  · rw [here, state]
    exact mod_eq_of_lt small
  · rw [here, entries]
    exact (mod_eq_of_lt (u32At_lt _ _)).trans logged.entries
  · refine Eq.trans (map_congr_left ?_) logged.log
    intro i inside
    have inside := lt_of_lt_of_le (mem_range.mp inside) logged.room
    have below := lt_of_lt_of_le inside (capacity_le_max _)
    have data : Journal.restated p A st' (p.data i) = A (p.data i) :=
      update_of_ne p.data_ne_header _ _
    rw [here, data, targets i below]
    simp only [decode_target below]
    rw [mod_eq_of_lt (u32At_lt _ _)]

theorem Logged.cleared : Logged p (cleared p A) JNL_STATE_EMPTY [] := by
  obtain ⟨magic, entries, state, -⟩ := encodeHeader_words
    { decodeHeader (A p.header) with numEntries := 0, state := JNL_STATE_EMPTY }
  have here : Journal.cleared p A p.header = _ := update_self _ _ _
  refine ⟨?_, ?_, ?_, rfl, zero_le _⟩
  · rw [here, magic]
    exact (mod_eq_of_lt (u32At_lt _ _)).trans logged.magic
  · rw [here, state]
    rfl
  · rw [here, entries]
    rfl

theorem Logged.appended (x : Sector) (room : es.length < capacityForBlocks p.num) (small : target < 2 ^ 32) :
    Logged p (appended p A es.length target x) st (es ++ [(target, x)]) := by
  have below := lt_of_lt_of_le room (capacity_le_max _)
  obtain ⟨magic, entries, state, targets⟩ := encodeHeader_words { decodeHeader (A p.header) with
    targets := update (decodeHeader (A p.header)).targets es.length target
    numEntries := es.length + 1 }
  have here : Journal.appended p A es.length target x p.header = _ := update_self _ _ _
  have length : (es ++ [(target, x)]).length = es.length + 1 := length_append
  have word : ∀ i, i ≤ es.length → (Journal.appended p A es.length target x p.header).u32At (targetOff i) =
      if i = es.length then target else (A p.header).u32At (targetOff i) := by
    intro i inside
    rw [here, targets i (by omega)]
    split
    · next last =>
      simp only [last, update_self]
      exact mod_eq_of_lt small
    · next other =>
      simp only [update_of_ne other, decode_target (lt_of_le_of_lt inside below)]
      exact mod_eq_of_lt (u32At_lt _ _)
  have data : ∀ i, Journal.appended p A es.length target x (p.data i) =
      if i = es.length then x else A (p.data i) := by
    intro i
    rw [Journal.appended, update_of_ne p.data_ne_header]
    split
    · next last => rw [last, update_self]
    · next other => exact update_of_ne (fun same => other (p.data_inj same)) _ _
  refine ⟨?_, ?_, ?_, ?_, by omega⟩
  · rw [here, magic]
    exact (mod_eq_of_lt (u32At_lt _ _)).trans logged.magic
  · rw [here, state]
    exact (mod_eq_of_lt (u32At_lt _ _)).trans logged.state
  · rw [here, entries, length]
    simp only [MAX_ENTRIES] at below
    exact mod_eq_of_lt (show es.length + 1 < 2 ^ 32 by omega)
  · rw [length, range_succ, map_append, map_singleton, word _ le_rfl, data, if_pos rfl, if_pos rfl]
    refine congrArg (· ++ [(target, x)]) (Eq.trans (map_congr_left ?_) logged.log)
    intro i inside
    have before := mem_range.mp inside
    rw [word i (by omega), data i, if_neg (by omega), if_neg (by omega)]

omit logged

/-! ## Copying the images to their targets -/

/-- The loop of the commit and of the replay: entries for block 0 are skipped. -/
def copyAll (p : Place) (target : Nat → Nat) : List Nat → (Key → Sector) → Key → Sector
  | [], A => A
  | i :: rest, A =>
    copyAll p target rest
      (if target i = 0 then A else update A (p.dev, target i) (A (p.data i)))

/-- The entries of a transaction carried out on the map. -/
def install (dev : Nat) : List (Nat × Sector) → (Key → Sector) → Key → Sector
  | [], A => A
  | (target, x) :: rest, A =>
    install dev rest (if target = 0 then A else update A (dev, target) x)

/-- As long as the targets are outside of the journal, the images stay what they
    are, and the loop installs them. -/
theorem copyAll_eq_install (target : Nat → Nat) (is : List Nat)
    (outside : ∀ i ∈ is, target i ≠ 0 → ¬ p.Holds (p.dev, target i))
    (inside : ∀ i ∈ is, i < capacityForBlocks p.num) :
    copyAll p target is A = install p.dev (is.map fun i => (target i, A (p.data i))) A := by
  induction is generalizing A with
  | nil => rfl
  | cons i is ih =>
    have outside' := fun i' member => outside i' (mem_cons_of_mem i member)
    have inside' := fun i' member => inside i' (mem_cons_of_mem i member)
    rw [copyAll, map_cons, install, ih outside' inside']
    refine congrArg (install p.dev · _) (map_congr_left ?_)
    intro i' member
    split
    · rfl
    · next nonzero =>
      have other : p.data i' ≠ (p.dev, target i) := fun same =>
        outside i (.head _) nonzero (same ▸ p.holds_data (inside' i' member))
      rw [update_of_ne other]

theorem install_other (dev : Nat) (apart : ∀ e ∈ es, e.1 ≠ 0 → (dev, e.1) ≠ k) :
    install dev es A k = A k := by
  induction es generalizing A with
  | nil => rfl
  | cons e es ih =>
    rw [install, ih fun e' member => apart e' (mem_cons_of_mem e member)]
    split
    · rfl
    · next nonzero => exact update_of_ne (apart e (.head _) nonzero).symm _ _

/-- The sectors a list of targets names on the journal's device. -/
def targetKeys (dev : Nat) (targets : List Nat) : Finset Key := (targets.map fun t => (dev, t)).toFinset

/-- The sectors of `Q` and the journal's data sectors can be cached together. -/
structure Uncrowded (p : Place) (Q : Finset Key) : Prop where
  targets : ∀ k ∈ Q, Sparse Q k
  data : ∀ i < capacityForBlocks p.num, Sparse Q (p.data i)

theorem copy_one (guarded : Guarded s A B Q S) (uncrowded : Uncrowded p Q)
    (inside : i < capacityForBlocks p.num) (named : (p.dev, target) ∈ Q) :
    ∃ s₁ s₂, bcRead s p.dev (p.start + 1 + i) = (some (A (p.data i)), s₁) ∧
      bcWrite s₁ p.dev target (A (p.data i)) = (true, s₂) ∧
      Guarded s₂ (update A (p.dev, target) (A (p.data i))) B Q S := by
  obtain ⟨s₁, read, guarded₁⟩ := guarded.read (uncrowded.data i inside)
  obtain ⟨s₂, write, guarded₂⟩ :=
    guarded₁.write (uncrowded.targets _ named) (A (p.data i))
  rw [Finset.insert_eq_of_mem named] at guarded₂
  exact ⟨s₁, s₂, read, write, guarded₂⟩

theorem commitEntries_guarded {hdr : JournalHeader} (on : p.On j) (uncrowded : Uncrowded p Q)
    (is : List Nat) (inside : ∀ i ∈ is, i < capacityForBlocks p.num)
    (named : ∀ i ∈ is, (p.dev, hdr.targets i) ∈ Q) (guarded : Guarded s A B Q S) :
    ∃ s', commitEntries j hdr is s = (true, s') ∧ Guarded s' (copyAll p hdr.targets is A) B Q S := by
  induction is generalizing s A with
  | nil => exact ⟨s, rfl, guarded⟩
  | cons i is ih =>
    rw [forall_mem_cons] at inside named
    rw [commitEntries, copyAll]
    by_cases zero : hdr.targets i = 0
    · rw [if_pos zero, if_pos zero]
      exact ih inside.2 named.2 guarded
    · obtain ⟨s₁, s₂, read, write, guarded₂⟩ :=
        copy_one guarded uncrowded inside.1 named.1
      obtain ⟨s', run, guarded'⟩ := ih inside.2 named.2 guarded₂
      refine ⟨s', ?_, by rw [if_neg zero]; exact guarded'⟩
      rw [if_neg zero, on.dev, on.start, on.num, p.dataBlockFor_eq inside.1]
      simp only [read, write, run]

theorem replayEntries_guarded (uncrowded : Uncrowded p Q) (is : List Nat)
    (inside : ∀ i ∈ is, i < capacityForBlocks p.num)
    (named : ∀ i ∈ is, (p.dev, buf.u32At (targetOff i)) ∈ Q) (guarded : Guarded s A B Q S) :
    Guarded (replayEntries p.dev p.start p.num buf is s)
      (copyAll p (fun i => buf.u32At (targetOff i)) is A) B Q S := by
  induction is generalizing s A with
  | nil => exact guarded
  | cons i is ih =>
    rw [forall_mem_cons] at inside named
    rw [replayEntries, copyAll]
    by_cases zero : buf.u32At (targetOff i) = 0
    · rw [if_pos zero, if_pos zero]
      exact ih inside.2 named.2 guarded
    · obtain ⟨s₁, s₂, read, write, guarded₂⟩ :=
        copy_one guarded uncrowded inside.1 named.1
      rw [if_neg zero, if_neg zero, p.dataBlockFor_eq inside.1]
      simp only [read, write]
      exact ih inside.2 named.2 guarded₂

/-! ## The calls -/

theorem sparse_empty (k : Key) : Sparse ∅ k := sparse_of_few (by decide) k

theorem write_header_flush (guarded : Guarded s A A ∅ S) (on : p.On j) (hdr : JournalHeader)
    (survives : ∀ d, Mix A (update A p.header (encodeHeader hdr)) d → S d) :
    ∃ s₁ s₂, writeHeader j s hdr = (true, s₁) ∧ s₁.flushAll = (true, s₂) ∧
      Guarded s₂ (update A p.header (encodeHeader hdr))
        (update A p.header (encodeHeader hdr)) ∅ S := by
  obtain ⟨s₁, write, guarded₁⟩ := write_header guarded (sparse_empty _) on hdr
  obtain ⟨s₂, flush, guarded₂⟩ := guarded₁.flush survives
  exact ⟨s₁, s₂, write, flush, guarded₂⟩

section

variable (guarded : Guarded w.store A A ∅ S)

include guarded

theorem journalBegin_spec (on : p.On w.jnl) (set : w.jnl.devId ≠ 0xFF) (closed : w.jnl.active = false)
    (magic : (A p.header).u32At 0 = JOURNAL_MAGIC)
    (survives : ∀ d, Mix A (restated p A JNL_STATE_ACTIVE) d → S d) :
    ∃ j' s', journalBegin w = (true, ⟨j', s'⟩) ∧ p.On j' ∧ j'.active = true ∧ j'.devId = w.jnl.devId ∧
      Guarded s' (restated p A JNL_STATE_ACTIVE) (restated p A JNL_STATE_ACTIVE) ∅ S := by
  let j := { w.jnl with sequence := (w.jnl.sequence + 1) % 2 ^ 32 }
  have on' : p.On j := ⟨on.dev, on.start, on.num⟩
  obtain ⟨s₁, read, guarded₁⟩ := read_magic guarded (sparse_empty _) on' magic
  obtain ⟨s₂, s₃, write, flush, guarded₃⟩ := write_header_flush guarded₁ on' _ survives
  refine ⟨{ j with active := true }, s₃, ?_, ⟨on.dev, on.start, on.num⟩, rfl, rfl, guarded₃⟩
  have closed' : ¬ w.jnl.active = true := by simp [closed]
  simp only [journalBegin, if_neg set, if_neg closed', j] at *
  simp only [read, write, flush]

theorem journalBegin_magic (on : p.On w.jnl) (accepted : journalBegin w = (true, w')) :
    (A p.header).u32At 0 = JOURNAL_MAGIC ∧ w.jnl.devId ≠ 0xFF ∧ w.jnl.active = false := by
  let j := { w.jnl with sequence := (w.jnl.sequence + 1) % 2 ^ 32 }
  have on' : p.On j := ⟨on.dev, on.start, on.num⟩
  obtain ⟨s₁, read, -⟩ := read_header guarded (sparse_empty _) on'
  unfold journalBegin at accepted
  split at accepted
  · cases congrArg Prod.fst accepted
  next set =>
    split at accepted
    · cases congrArg Prod.fst accepted
    next closed =>
      refine ⟨?_, set, by simpa using closed⟩
      by_contra wrong
      rw [if_neg wrong] at read
      simp only [j] at read
      simp only [read] at accepted
      cases congrArg Prod.fst accepted

/-- An accepted `journal_write` adds an entry to the journal; a refused one, other than of a
    block number that does not fit, changes nothing. -/
theorem journalWrite_spec {ok : Bool} {data : List UInt8} (on : p.On w.jnl) (logged : Logged p A st es)
    (run : journalWrite w target data = (ok, w'))
    (survives : ∀ d, Mix A (appended p A es.length target (image data)) d → S d) :
    (ok = true → es.length < capacityForBlocks p.num ∧ target < 2 ^ 32 ∧ w'.jnl = w.jnl ∧
      Guarded w'.store (appended p A es.length target (image data))
        (appended p A es.length target (image data)) ∅ S) ∧
    (ok = false → target < 2 ^ 32 → w'.jnl = w.jnl ∧ Guarded w'.store A A ∅ S) := by
  obtain ⟨s₁, read, guarded₁⟩ := read_magic guarded (sparse_empty _) on logged.magic
  have entries : (decodeHeader (A p.header)).numEntries = es.length := logged.entries
  unfold journalWrite at run
  split at run
  · cases run
    exact ⟨by simp, fun _ _ => ⟨rfl, guarded⟩⟩
  rw [read] at run
  simp only [entries, on.start, on.num] at run
  by_cases room : es.length < capacityForBlocks p.num
  · rw [p.dataBlockFor_eq room] at run
    obtain ⟨s₂, write, guarded₂⟩ := guarded₁.write (sparse_empty (p.data es.length)) (image data)
    have write : bcWrite s₁ w.jnl.devId (p.start + 1 + es.length) (image data) = (true, s₂) :=
      on.dev ▸ write
    simp only [write] at run
    split at run
    · next big =>
      cases run
      exact ⟨by simp, fun _ small => absurd small (not_lt.mpr big)⟩
    · next small =>
      have few : Sparse (insert (p.data es.length) ∅) p.header := sparse_of_few
        (lt_of_le_of_lt (Finset.card_insert_le _ _) (by decide)) _
      obtain ⟨s₃, put, guarded₃⟩ := write_header guarded₂ few on
        { decodeHeader (A p.header) with
          targets := update (decodeHeader (A p.header)).targets es.length target
          numEntries := es.length + 1 }
      simp only [put] at run
      obtain ⟨s₄, flush, guarded₄⟩ := guarded₃.flush survives
      rw [flush] at run
      cases run
      exact ⟨fun _ => ⟨room, Nat.lt_of_not_le small, rfl, guarded₄⟩, by simp⟩
  · rw [dataBlockFor, if_pos (Nat.le_of_not_lt room)] at run
    cases run
    exact ⟨by simp, fun _ _ => ⟨rfl, guarded₁⟩⟩

theorem clearHeader_spec (on : p.On w.jnl)
    (magic : (A p.header).u32At 0 = JOURNAL_MAGIC) (survives : ∀ d, Mix A (cleared p A) d → S d) :
    ∃ s', clearHeader w = (true, ⟨{ w.jnl with active := false }, s'⟩) ∧
      Guarded s' (cleared p A) (cleared p A) ∅ S := by
  obtain ⟨s₁, read, guarded₁⟩ := read_magic guarded (sparse_empty _) on magic
  obtain ⟨s₂, s₃, write, flush, guarded₃⟩ := write_header_flush guarded₁ on _ survives
  refine ⟨s₃, ?_, guarded₃⟩
  simp only [clearHeader, read, write, flush]

end

/-- How a commit ends, once its header is read: refused by the first or by the
    second barrier, or carried through. -/
inductive Committed (deviceFlush : Store → Bool) (w : System) (A₁ A₂ A₃ : Key → Sector)
    (S : (Key → Sector) → Prop) : Bool × System → Prop
  | unbarriered {s : Store} : deviceFlush s = false → Guarded s A₁ A₁ ∅ S →
      Committed deviceFlush w A₁ A₂ A₃ S (false, { w with store := s })
  | uncleared {s : Store} : deviceFlush s = false → Guarded s A₂ A₂ ∅ S →
      Committed deviceFlush w A₁ A₂ A₃ S (false, { w with store := s })
  | done {s : Store} : Guarded s A₃ A₃ ∅ S →
      Committed deviceFlush w A₁ A₂ A₃ S (true, ⟨{ w.jnl with active := false }, s⟩)

/-- The map while a commit goes on: the entries are installed, then the header is
    marked, then it is cleared. -/
def installed (p : Place) (es : List (Nat × Sector)) (A : Key → Sector) : Key → Sector :=
  install p.dev es A

def marked (p : Place) (es : List (Nat × Sector)) (A : Key → Sector) : Key → Sector :=
  restated p (installed p es A) JNL_STATE_COMMITTED

def closed (p : Place) (es : List (Nat × Sector)) (A : Key → Sector) : Key → Sector :=
  cleared p (marked p es A)

/-- No entry is for a sector of the journal itself. -/
def Outside (p : Place) (es : List (Nat × Sector)) : Prop :=
  ∀ e ∈ es, e.1 ≠ 0 → ¬ p.Holds (p.dev, e.1)

theorem installed_journal (outside : Outside p es) (mine : p.Holds k) :
    installed p es A k = A k :=
  install_other p.dev fun e member nonzero same => outside e member nonzero (same ▸ mine)

variable (logged : Logged p A st es)

include logged

theorem Logged.installed (outside : Outside p es) :
    Logged p (installed p es A) st es :=
  logged.congr fun _ mine => installed_journal outside mine

theorem Logged.marked (outside : Outside p es) :
    Logged p (marked p es A) JNL_STATE_COMMITTED es :=
  (logged.installed outside).restated (by decide)

theorem Logged.copyAll (outside : Outside p es) {target : Nat → Nat}
    (named : ∀ i < es.length, target i = (A p.header).u32At (targetOff i)) :
    copyAll p target (range es.length) A = Journal.installed p es A := by
  have inside : ∀ i ∈ range es.length, i < capacityForBlocks p.num := fun i member =>
    lt_of_lt_of_le (mem_range.mp member) logged.room
  have entries : ((range es.length).map fun i => (target i, A (p.data i))) = es := by
    refine Eq.trans (map_congr_left ?_) logged.log
    intro i member
    rw [named i (mem_range.mp member)]
  rw [copyAll_eq_install target _ ?_ inside, entries]
  · rfl
  · intro i member
    have entry : (target i, A (p.data i)) ∈ es := by
      rw [← entries]
      exact mem_map_of_mem member
    exact outside _ entry

theorem Logged.named (inside : i < es.length) :
    (p.dev, (A p.header).u32At (targetOff i)) ∈ targetKeys p.dev (es.map Prod.fst) := by
  have entry : ((A p.header).u32At (targetOff i), A (p.data i)) ∈ es := by
    rw [← logged.log]
    exact mem_map.mpr ⟨i, mem_range.mpr inside, rfl⟩
  rw [targetKeys, mem_toFinset, map_map]
  exact mem_map.mpr ⟨_, entry, rfl⟩

omit logged

theorem journalCommit_spec (deviceFlush : Store → Bool)
    (guarded : Guarded w.store A A ∅ S) (on : p.On w.jnl) (set : w.jnl.devId ≠ 0xFF)
    (active : w.jnl.active = true) (logged : Logged p A st es) (outside : Outside p es)
    (uncrowded : Uncrowded p (targetKeys p.dev (es.map Prod.fst)))
    (copying : ∀ d, Mix A (installed p es A) d → S d)
    (marking : ∀ d, Mix (installed p es A) (marked p es A) d → S d)
    (clearing : ∀ d, Mix (marked p es A) (closed p es A) d → S d) :
    Committed deviceFlush w (installed p es A) (marked p es A) (closed p es A) S
      (journalCommit deviceFlush w) := by
  obtain ⟨s₁, read, guarded₁⟩ := read_magic guarded (sparse_empty _) on logged.magic
  have inside : ∀ i ∈ range es.length, i < capacityForBlocks p.num := fun i member =>
    lt_of_lt_of_le (mem_range.mp member) logged.room
  have target : ∀ i < es.length,
      (decodeHeader (A p.header)).targets i = (A p.header).u32At (targetOff i) := fun i below =>
    decode_target (lt_of_lt_of_le below (logged.room.trans (capacity_le_max _)))
  obtain ⟨s₂, copied, guarded₂⟩ := commitEntries_guarded on uncrowded (range es.length) inside
    (fun i member => by
      rw [target i (mem_range.mp member)]
      exact logged.named (mem_range.mp member))
    (guarded₁.widen (Finset.empty_subset _))
  rw [logged.copyAll outside target] at guarded₂
  obtain ⟨s₃, flush, guarded₃⟩ := guarded₂.flush copying
  have limit : replayEntryLimit (decodeHeader (A p.header)).numEntries p.num = es.length :=
    logged.limit
  have started : ¬ (!w.jnl.active || w.jnl.devId == 0xFF) = true := by simp [active, set]
  rw [journalCommit, if_neg started, read]
  simp only [on.num, limit, copied, flush]
  split
  · next barrier =>
    have magic := (logged.installed outside).magic
    let w₃ : System := { w with store := s₃ }
    have on₃ : p.On w₃.jnl := on
    have guarded₃ : Guarded w₃.store _ _ ∅ S := guarded₃
    obtain ⟨s₄, read', guarded₄⟩ := read_magic guarded₃ (sparse_empty _) on₃ magic
    obtain ⟨s₅, s₆, write, flush', guarded₆⟩ := write_header_flush guarded₄ on₃ _ marking
    show Committed deviceFlush w _ _ _ S (markCommitted deviceFlush w₃)
    rw [markCommitted, read']
    simp only [write, flush']
    split
    · let w₆ : System := { w with store := s₆ }
      have guarded₆ : Guarded w₆.store (marked p es A) (marked p es A) ∅ S := guarded₆
      obtain ⟨s₇, clear, guarded₇⟩ :=
        clearHeader_spec guarded₆ on (logged.marked outside).magic clearing
      rw [clear]
      exact .done guarded₇
    · next refused => exact .uncleared (by simpa using refused) guarded₆
  · next refused => exact .unbarriered (by simpa using refused) guarded₃

end Zenus.Fs.Journal
