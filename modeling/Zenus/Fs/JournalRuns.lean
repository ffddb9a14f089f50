import Zenus.Fs.JournalCrash
import Zenus.Lib.Run

/-! # Histories of journal calls

A history interleaves initialisations, replays and transactions.  Next to the
system run the writes accepted since the last accepted begin and the disk as it was
then, so that a commit can be compared with what it should install.

The header outlives its transaction in two ways: a replay retires it without
resetting its entry count, and a commit that a barrier or a device refuses leaves
the transaction open.  Entries for block 0 are recorded and then skipped.
-/

namespace Zenus.Fs.Journal

open Sector Lib.Word Lib.Run List Clean
open Function (update update_self)

structure History where
  w : System
  /-- The writes accepted since the last accepted begin. -/
  log : List (Nat × List UInt8)
  /-- The disk at that begin. -/
  base : Key → Sector

inductive Call where
  | init (devId startBlock numBlocks : Nat)
  | replay (devId startBlock numBlocks : Nat)
  | begin
  | write (target : Nat) (data : List UInt8)
  | commit (deviceFlush : Store → Bool)

def step (h : History) : Call → Option History
  | .init devId startBlock numBlocks =>
    some { h with w := (journalInit h.w devId startBlock numBlocks).2 }
  | .replay devId startBlock numBlocks =>
    some { h with w := (journalReplay h.w devId startBlock numBlocks).2 }
  | .begin =>
    match journalBegin h.w with
    | (true, w) => some ⟨w, [], h.w.store.disk.data⟩
    | (false, w) => some { h with w }
  | .write target data =>
    match journalWrite h.w target data with
    | (true, w) => some { h with w, log := h.log ++ [(target, data)] }
    | (false, w) => some { h with w }
  | .commit deviceFlush => some { h with w := (journalCommit deviceFlush h.w).2 }

/-- Before any call: no journal is set, and the cache is cold. -/
def start (disk : Disk) : History := ⟨⟨.unset, .cold disk⟩, [], disk.data⟩

/-- The header and data sectors of the journal that the statics describe. -/
def InJournal (j : JournalState) (k : Key) : Prop :=
  k.1 = j.devId ∧ j.startBlock ≤ k.2 ∧ k.2 ≤ j.startBlock + capacityForBlocks j.numBlocks

instance (j : JournalState) (k : Key) : Decidable (InJournal j k) :=
  inferInstanceAs (Decidable (_ ∧ _))

/-- The sectors of `Q` can be cached together with the data sectors of a journal. -/
def Cacheable (devId startBlock numBlocks : Nat) (Q : Finset Key) : Prop :=
  (∀ k ∈ Q, Sparse Q k) ∧
    ∀ i < capacityForBlocks numBlocks, Sparse Q (devId, startBlock + 1 + i)

instance (devId startBlock numBlocks : Nat) (Q : Finset Key) :
    Decidable (Cacheable devId startBlock numBlocks Q) := inferInstanceAs (Decidable (_ ∧ _))

/-- The targets of a header that a replay would act on. -/
def headerTargets (buf : Sector) (numBlocks : Nat) : List Nat :=
  (List.range (replayEntryLimit (buf.u32At 8) numBlocks)).map fun i => buf.u32At (targetOff i)

/-- What a call must find: a journal that fits the device, no more sectors at once
    than their windows hold, an empty header at a begin, and targets other than
    block 0 and the journal's own blocks. -/
def Orderly (h : History) : Call → Prop
  | .init _ startBlock numBlocks => startBlock + capacityForBlocks numBlocks < WORD
  | .replay devId startBlock numBlocks =>
    startBlock + capacityForBlocks numBlocks < WORD ∧
      Cacheable devId startBlock numBlocks
        (targetKeys devId (headerTargets (h.w.store.disk.data (devId, startBlock)) numBlocks))
  | .begin => (h.w.store.disk.data (h.w.jnl.devId, h.w.jnl.startBlock)).u32At 8 = 0
  | .write target _ => target ≠ 0 ∧ target < 2 ^ 32 ∧ ¬ InJournal h.w.jnl (h.w.jnl.devId, target)
  | .commit _ =>
    Cacheable h.w.jnl.devId h.w.jnl.startBlock h.w.jnl.numBlocks
      (targetKeys h.w.jnl.devId (h.log.map Prod.fst))

def Barrier : Call → Prop
  | .commit deviceFlush => ∀ s, deviceFlush s = true
  | _ => True

instance (h : History) : (call : Call) → Decidable (Orderly h call)
  | .init _ startBlock numBlocks =>
    inferInstanceAs (Decidable (startBlock + capacityForBlocks numBlocks < WORD))
  | .replay _ _ _ => inferInstanceAs (Decidable (_ ∧ _))
  | .begin => inferInstanceAs (Decidable (_ = 0))
  | .write _ _ => inferInstanceAs (Decidable (_ ∧ _))
  | .commit _ => inferInstanceAs (Decidable (Cacheable _ _ _ _))

/-- Every call of the history meets its conditions. -/
def Ordinary (h : History) (call : Call) : Prop := Barrier call ∧ Orderly h call

/-- Nothing is dirty between calls.  A journal that is set has its magic number, and
    an open transaction is logged in it while the rest of the disk is as it was. -/
structure Inv (h : History) : Prop where
  clean : Clean h.w.store
  ready : h.w.jnl.devId ≠ 0xFF → ∃ p : Place, p.On h.w.jnl ∧
    (h.w.store.disk.data p.header).u32At 0 = JOURNAL_MAGIC
  opened : h.w.jnl.active = true → h.w.jnl.devId ≠ 0xFF ∧ ∀ p : Place, p.On h.w.jnl →
    Logged p h.w.store.disk.data JNL_STATE_ACTIVE (entriesOf h.log) ∧
    (∀ k, ¬ p.Holds k → h.w.store.disk.data k = h.base k) ∧
    ∀ e ∈ h.log, e.1 ≠ 0 ∧ ¬ p.Holds (p.dev, e.1)

variable {s : Store} {p q : Place} {j : JournalState} {S : (Key → Sector) → Prop} {A base : Key → Sector}

theorem Clean.of_guarded (guarded : Guarded s A A ∅ S) : Clean s ∧ s.disk.data = A := by
  refine ⟨⟨guarded.disk.symm ▸ guarded.shows, ?_⟩, guarded.disk⟩
  exact Set.eq_empty_of_subset_empty (by simpa using guarded.pending)

theorem Clean.calm (clean : Clean s) :
    Guarded s s.disk.data s.disk.data ∅ fun _ => True := clean.guarded fun _ _ => trivial

theorem Place.On.unique (first : p.On j) (second : q.On j) : p = q := by
  cases p with
  | mk dev start num fits =>
    cases q with
    | mk dev' start' num' fits' =>
      obtain rfl : dev = dev' := first.dev.symm.trans second.dev
      obtain rfl : start = start' := first.start.symm.trans second.start
      obtain rfl : num = num' := first.num.symm.trans second.num
      rfl

theorem Place.On.holds_iff (on : p.On j) (k : Key) : p.Holds k ↔ InJournal j k := by
  rw [Place.Holds, InJournal, on.dev, on.start, on.num]

theorem Place.On.uncrowded (on : p.On j) {Q : Finset Key}
    (cacheable : Cacheable j.devId j.startBlock j.numBlocks Q) : Uncrowded p Q := by
  refine ⟨cacheable.1, fun i inside => ?_⟩
  have sparse := cacheable.2 i (on.num ▸ inside)
  rwa [on.dev, on.start] at sparse

theorem start_inv {disk : Disk} (works : disk.Works) : Inv (start disk) := by
  refine ⟨⟨Store.shows_cold works, ?_⟩, fun set => absurd rfl set, ?_⟩
  · refine Set.eq_empty_iff_forall_notMem.mpr ?_
    rintro k ⟨idx, a, found, -⟩
    simp [start, Store.view, Store.cold, BlockCache.new, CacheEntry.line] at found
  · intro active
    simp [start, JournalState.unset] at active

/-! ## One call -/

variable {h h' : History}

theorem inv_idle {log : List (Nat × List UInt8)} (guarded : Guarded s A A ∅ S) (on : p.On j)
    (idle : j.active = false) (magic : (A p.header).u32At 0 = JOURNAL_MAGIC) : Inv ⟨⟨j, s⟩, log, base⟩ := by
  obtain ⟨clean, disk⟩ := of_guarded guarded
  exact ⟨clean, fun _ => ⟨p, on, disk ▸ magic⟩, fun active => absurd active (by simp [idle])⟩

variable (inv : Inv h) {devId startBlock numBlocks target : Nat} {deviceFlush : Store → Bool}

include inv

theorem journalInit_inv (fits : startBlock + capacityForBlocks numBlocks < WORD) :
    Inv { h with w := (journalInit h.w devId startBlock numBlocks).2 } := by
  let p : Place := ⟨devId, startBlock, numBlocks, fits⟩
  let hdr : JournalHeader :=
    { magic := JOURNAL_MAGIC, sequence := 0, numEntries := 0, state := JNL_STATE_EMPTY
      reserved := 0, targets := fun _ => 0 }
  obtain ⟨s₁, write, guarded₁⟩ := inv.clean.calm.write (sparse_empty p.header) (encodeHeader hdr)
  obtain ⟨s₂, flush, guarded₂⟩ := guarded₁.flush fun _ _ => trivial
  have guarded₃ := guarded₂.invalidate devId startBlock
  have run : (journalInit h.w devId startBlock numBlocks).2 =
      ⟨{ devId, startBlock, numBlocks, sequence := 0, active := false },
        (s₂.invalidate devId startBlock).2⟩ := by
    have write : bcWrite h.w.store devId startBlock (encodeHeader hdr) = (true, s₁) := write
    simp only [journalInit, hdr] at *
    simp only [write, flush]
  rw [run]
  refine inv_idle (p := p) guarded₃ ⟨rfl, rfl, rfl⟩ rfl ?_
  have here : update h.w.store.disk.data p.header (encodeHeader hdr) p.header =
      encodeHeader hdr := update_self _ _ _
  exact (congrArg (u32At · 0) here).trans (encodeHeader_words hdr).1

theorem journalReplay_inv (orderly : Orderly h (.replay devId startBlock numBlocks)) :
    Inv { h with w := (journalReplay h.w devId startBlock numBlocks).2 } ∧
      ((journalReplay h.w devId startBlock numBlocks).2.jnl.active = true → h.w.jnl.active = true) := by
  let p : Place := ⟨devId, startBlock, numBlocks, orderly.1⟩
  obtain ⟨s, read, guarded⟩ := inv.clean.calm.read (sparse_empty p.header)
  have read : bcRead h.w.store p.dev p.start = (some (h.w.store.disk.data p.header), s) := read
  rw [journalReplay_eq read]
  split
  · next committed =>
    have uncrowded : Uncrowded p (targetKeys devId
        (headerTargets (h.w.store.disk.data p.header) numBlocks)) := ⟨orderly.2.1, orderly.2.2⟩
    have room : replayEntryLimit ((h.w.store.disk.data p.header).u32At 8) numBlocks ≤
        capacityForBlocks numBlocks :=
      (Nat.min_le_right _ _).trans (Nat.min_le_right _ _)
    obtain ⟨C, final, guarded'⟩ := redo_guarded guarded (fun _ => trivial) room uncrowded (by
      intro i inside
      rw [targetKeys, mem_toFinset]
      refine mem_map.mpr ⟨_, mem_map.mpr ⟨i, mem_range.mpr inside, rfl⟩, rfl⟩)
    refine ⟨inv_idle (p := p) guarded' ⟨rfl, rfl, rfl⟩ rfl ?_, fun bad => absurd bad (by simp)⟩
    rw [final, update_self, u32At_putU32_other (by omega)]
    exact committed.1
  · obtain ⟨clean, disk⟩ := of_guarded guarded
    refine ⟨⟨clean, ?_, ?_⟩, id⟩
    · intro set
      obtain ⟨q, on, magic⟩ := inv.ready set
      exact ⟨q, on, disk ▸ magic⟩
    · intro active
      obtain ⟨set, logged⟩ := inv.opened active
      refine ⟨set, fun q on => ?_⟩
      rw [disk]
      exact logged q on

theorem journalBegin_accepted (set : h.w.jnl.devId ≠ 0xFF)
    (idle : h.w.jnl.active = false) : (journalBegin h.w).1 = true := by
  obtain ⟨p, on, magic⟩ := inv.ready set
  obtain ⟨j, s, run, -⟩ := journalBegin_spec inv.clean.calm on set idle magic fun _ _ => trivial
  rw [run]

theorem begin_inv (orderly : Orderly h .begin) (stepped : step h .begin = some h') : Inv h' := by
  by_cases refused : h.w.jnl.devId = 0xFF ∨ h.w.jnl.active = true
  · have run : journalBegin h.w = (false, h.w) := by
      unfold journalBegin
      split
      · rfl
      · next set => rw [if_pos (refused.resolve_left set)]
    rw [step, run] at stepped
    cases stepped
    exact inv
  · rw [not_or] at refused
    obtain ⟨set, closed⟩ := refused
    have idle : h.w.jnl.active = false := by simpa using closed
    obtain ⟨p, on, magic⟩ := inv.ready set
    obtain ⟨j, s, run, on', active, dev, guarded⟩ :=
      journalBegin_spec inv.clean.calm on set idle magic fun _ _ => trivial
    rw [step, run] at stepped
    cases stepped
    have empty : (h.w.store.disk.data p.header).u32At 8 = 0 := by
      rw [Place.header, ← on.dev, ← on.start]
      exact orderly
    have logged₀ : Logged p h.w.store.disk.data ((h.w.store.disk.data p.header).u32At 12) [] :=
      ⟨magic, rfl, empty, rfl, Nat.zero_le _⟩
    have logged := logged₀.restated (show JNL_STATE_ACTIVE < 2 ^ 32 by decide)
    obtain ⟨clean, disk⟩ := of_guarded guarded
    refine ⟨clean, fun _ => ⟨p, on', ?_⟩, fun _ => ⟨dev ▸ set, fun q onq => ?_⟩⟩
    · show (s.disk.data p.header).u32At 0 = JOURNAL_MAGIC
      rw [disk]
      exact logged.magic
    · obtain rfl := onq.unique on'
      refine ⟨?_, ?_, fun e member => absurd member not_mem_nil⟩
      · show Logged q s.disk.data JNL_STATE_ACTIVE []
        rw [disk]
        exact logged
      · intro k other
        rw [disk]
        exact restated_other other

theorem write_inv {data : List UInt8} (orderly : Orderly h (.write target data))
    (stepped : step h (.write target data) = some h') : Inv h' := by
  by_cases active : h.w.jnl.active = true
  · obtain ⟨set, logged⟩ := inv.opened active
    obtain ⟨p, on, magic⟩ := inv.ready set
    obtain ⟨logged, same, named⟩ := logged p on
    have outside : ¬ p.Holds (p.dev, target) := by
      rw [on.holds_iff, ← on.dev]
      exact orderly.2.2
    cases run : journalWrite h.w target data with
    | mk ok w' =>
      rw [step, run] at stepped
      cases ok with
      | true =>
        cases stepped
        obtain ⟨room, small, jnl, guarded⟩ :=
          (journalWrite_spec inv.clean.calm on logged run fun _ _ => trivial).1 rfl
        obtain ⟨clean, disk⟩ := of_guarded guarded
        have longer := logged.appended (image data) room small
        refine ⟨clean, fun _ => ⟨p, ?_, ?_⟩, fun _ => ⟨?_, fun q onq => ?_⟩⟩
        · rw [jnl]
          exact on
        · rw [disk]
          exact longer.magic
        · rw [jnl]
          exact set
        · cases onq.unique (by rw [jnl]; exact on)
          refine ⟨?_, ?_, ?_⟩
          · have grown : entriesOf (h.log ++ [(target, data)]) =
                entriesOf h.log ++ [(target, image data)] := map_append
            rw [disk, grown]
            exact longer
          · intro k other
            rw [disk, appended_other room other]
            exact same k other
          · intro e member
            cases mem_append.mp member with
            | inl old => exact named e old
            | inr new =>
              cases mem_singleton.mp new
              exact ⟨orderly.1, outside⟩
      | false =>
        cases stepped
        obtain ⟨jnl, guarded⟩ := (journalWrite_spec inv.clean.calm on logged run fun _ _ => trivial).2 rfl
          orderly.2.1
        obtain ⟨clean, disk⟩ := of_guarded guarded
        refine ⟨clean, fun _ => ⟨p, ?_, ?_⟩, fun _ => ⟨?_, fun q onq => ?_⟩⟩
        · rw [jnl]
          exact on
        · rw [disk]
          exact magic
        · rw [jnl]
          exact set
        · cases onq.unique (by rw [jnl]; exact on)
          rw [disk]
          exact ⟨logged, same, named⟩
  · have run : journalWrite h.w target data = (false, h.w) := by
      rw [journalWrite, if_pos (by simp [active])]
    rw [step, run] at stepped
    cases stepped
    exact inv

/-- A commit behind working barriers: refused where nothing is open, and otherwise
    carried through, with exactly the logged writes installed. -/
theorem journalCommit_cases (ordinary : Ordinary h (.commit deviceFlush)) :
    (journalCommit deviceFlush h.w = (false, h.w) ∧ (h.w.jnl.devId ≠ 0xFF → h.w.jnl.active = false)) ∨
      ∃ (p : Place) (s : Store) (A : Key → Sector), p.On h.w.jnl ∧
        journalCommit deviceFlush h.w = (true, ⟨{ h.w.jnl with active := false }, s⟩) ∧
        Guarded s A A ∅ (fun _ => True) ∧ (A p.header).u32At 0 = JOURNAL_MAGIC ∧
        ∀ k, ¬ p.Holds k → A k = written h.w.jnl.devId h.log h.base k := by
  obtain ⟨barrier, cacheable⟩ := ordinary
  by_cases opened : h.w.jnl.active = true ∧ h.w.jnl.devId ≠ 0xFF
  · obtain ⟨active, set⟩ := opened
    obtain ⟨_, logged⟩ := inv.opened active
    obtain ⟨p, on, magic⟩ := inv.ready set
    obtain ⟨logged, same, named⟩ := logged p on
    have outside : Outside p (entriesOf h.log) := by
      intro e member _
      obtain ⟨e', mine, rfl⟩ := mem_map.mp member
      exact (named e' mine).2
    have targets : (entriesOf h.log).map Prod.fst = h.log.map Prod.fst := by
      rw [entriesOf, map_map]
      rfl
    have uncrowded : Uncrowded p (targetKeys p.dev ((entriesOf h.log).map Prod.fst)) := by
      rw [targets, ← on.dev]
      exact on.uncrowded cacheable
    have result := journalCommit_spec deviceFlush inv.clean.calm on set active logged outside
      uncrowded (fun _ _ => trivial) (fun _ _ => trivial) (fun _ _ => trivial)
    refine .inr ⟨p, ?_⟩
    generalize run : journalCommit deviceFlush h.w = out at result
    cases result with
    | unbarriered refused _ | uncleared refused _ => cases (barrier _).symm.trans refused
    | done guarded =>
      refine ⟨_, _, on, rfl, guarded, (logged.marked outside).cleared.magic, ?_⟩
      intro k other
      rw [closed, cleared_other other, marked, restated_other other, installed,
        install_entriesOf fun e mine => (named e mine).1, on.dev]
      exact written_congr _ (same k other)
  · refine .inl ⟨?_, fun set => ?_⟩
    · rw [journalCommit, if_pos]
      simp only [Bool.or_eq_true, Bool.not_eq_true', beq_iff_eq]
      by_cases active : h.w.jnl.active = true
      · exact .inr (not_not.mp fun set => opened ⟨active, set⟩)
      · exact .inl (by simpa using active)
    · by_contra active
      exact opened ⟨by simpa using active, set⟩

theorem commit_inv (ordinary : Ordinary h (.commit deviceFlush)) :
    Inv { h with w := (journalCommit deviceFlush h.w).2 } ∧
      ((journalCommit deviceFlush h.w).2.jnl.devId ≠ 0xFF →
        (journalCommit deviceFlush h.w).2.jnl.active = false) := by
  rcases journalCommit_cases inv ordinary with ⟨run, idle⟩ | ⟨p, s, A, on, run, guarded, magic, -⟩
  · rw [run]
    exact ⟨inv, idle⟩
  · rw [run]
    exact ⟨inv_idle guarded ⟨on.dev, on.start, on.num⟩ rfl magic, fun _ => rfl⟩

omit inv

theorem step_inv (h : History) (call : Call) (h' : History) (inv : Inv h)
    (ordinary : Ordinary h call) (stepped : step h call = some h') : Inv h' := by
  cases call with
  | init devId startBlock numBlocks =>
    cases stepped
    exact journalInit_inv inv ordinary.2
  | replay devId startBlock numBlocks =>
    cases stepped
    exact (journalReplay_inv inv ordinary.2).1
  | begin => exact begin_inv inv ordinary.2 stepped
  | write target data => exact write_inv inv ordinary.2 stepped
  | commit deviceFlush =>
    cases stepped
    exact (commit_inv inv ordinary).1

/-- In every history over devices and barriers that never refuse, whose calls meet
    their conditions, a successful commit leaves the disk, outside of the journal, as
    its own writes make it of the disk at its begin; after a commit, and after a
    replay outside of a transaction, a journal that is set accepts a begin. -/
theorem commit_exact (disk : Disk) (works : disk.Works) (calls : List Call) {h : History}
    (ordinary : Along step Ordinary calls (start disk))
    (run : exec step calls (start disk) = some h) :
    (∀ deviceFlush, Ordinary h (.commit deviceFlush) →
      ((journalCommit deviceFlush h.w).1 = true → ∀ k, ¬ InJournal h.w.jnl k →
        (journalCommit deviceFlush h.w).2.store.disk.data k =
          written h.w.jnl.devId h.log h.base k) ∧
      ((journalCommit deviceFlush h.w).2.jnl.devId ≠ 0xFF →
        (journalBegin (journalCommit deviceFlush h.w).2).1 = true)) ∧
    ∀ devId startBlock numBlocks, Ordinary h (.replay devId startBlock numBlocks) →
      h.w.jnl.active = false →
      (journalReplay h.w devId startBlock numBlocks).2.jnl.devId ≠ 0xFF →
        (journalBegin (journalReplay h.w devId startBlock numBlocks).2).1 = true := by
  have inv : Inv h := invariant_along Inv step_inv (start_inv works) ordinary run
  refine ⟨fun deviceFlush ok => ⟨?_, ?_⟩, ?_⟩
  · intro accepted k other
    rcases journalCommit_cases inv ok with ⟨refused, -⟩ | ⟨p, s, A, on, done, guarded, -, exact'⟩
    · cases accepted.symm.trans (congrArg Prod.fst refused)
    · rw [done]
      have disk := guarded.disk
      rw [disk]
      exact exact' k fun mine => other ((on.holds_iff k).mp mine)
  · intro set
    obtain ⟨inv', idle⟩ := commit_inv inv ok
    exact journalBegin_accepted inv' set (idle set)
  · intro devId startBlock numBlocks ok idle set
    obtain ⟨inv', opens⟩ := journalReplay_inv inv ok.2
    refine journalBegin_accepted inv' set (Bool.eq_false_iff.mpr fun active => ?_)
    exact absurd (opens active) (by simp [idle])

def blank : Disk := { data := fun _ => Sector.zero }

/-- A transaction that writes block 0 of the device. -/
def blockZero : List Call := [.init 0 10 4, .begin, .write 0 [7]]

/-- A transaction whose first barrier fails, and a replay after it. -/
def refusedBarrier : List Call :=
  [.init 0 10 4, .begin, .write 20 [1], .commit fun _ => false, .replay 0 10 4]

/-- The accepted write of block 0 is skipped by a successful commit, and the failed
    commit leaves a journal that refuses every begin, also after a replay. -/
theorem commit_skips_and_wedges :
    (∃ h, exec step blockZero (start blank) = some h ∧ h.log = [(0, [7])] ∧
      (journalCommit (fun _ => true) h.w).1 = true ∧
      (journalCommit (fun _ => true) h.w).2.store.disk.data (0, 0) ≠
        written h.w.jnl.devId h.log h.base (0, 0)) ∧
    ∃ h, exec step refusedBarrier (start blank) = some h ∧
      (journalReplay h.w 0 10 4).1 = true ∧ (journalBegin h.w).1 = false := by
  obtain ⟨h, reached, log, committed, old, new⟩ : ∃ h, exec step blockZero (start blank) = some h ∧
      h.log = [(0, [7])] ∧ (journalCommit (fun _ => true) h.w).1 = true ∧
      ((journalCommit (fun _ => true) h.w).2.store.disk.data (0, 0)).byte 0 = 0 ∧
      (written h.w.jnl.devId h.log h.base (0, 0)).byte 0 = 7 := exists_of_any (by decide +kernel)
  refine ⟨⟨h, reached, log, committed, fun same => ?_⟩, exists_of_any (by decide +kernel)⟩
  rw [same, new] at old
  cases old

def twoCommits : List Call :=
  [.init 0 10 4, .begin, .write 20 [1], .write 20 [2], .commit fun _ => true, .replay 0 10 4,
    .begin, .write 21 [3]]

theorem commit_exact_twoCommits :
    ∃ h, exec step twoCommits (start blank) = some h ∧
      (journalCommit (fun _ => true) h.w).1 = true ∧
      (∀ k, ¬ InJournal h.w.jnl k → (journalCommit (fun _ => true) h.w).2.store.disk.data k =
        written h.w.jnl.devId h.log h.base k) ∧
      (journalBegin (journalCommit (fun _ => true) h.w).2).1 = true := by
  obtain ⟨h, reached, ready, committed, set⟩ : ∃ h, exec step twoCommits (start blank) = some h ∧
      Orderly h (.commit fun _ => true) ∧ (journalCommit (fun _ => true) h.w).1 = true ∧
      (journalCommit (fun _ => true) h.w).2.jnl.devId ≠ 0xFF := exists_of_any (by decide +kernel)
  have orderly : Along step Orderly twoCommits (start blank) := by decide +kernel
  have barriers : Along step (fun _ call => Barrier call) twoCommits (start blank) := by
    apply along_of_forall
    intro _ call member
    simp only [twoCommits, mem_cons, not_mem_nil, or_false] at member
    rcases member with rfl | rfl | rfl | rfl | rfl | rfl | rfl | rfl <;> simp [Barrier]
  have spec := (commit_exact blank ⟨fun _ => rfl, fun _ => rfl⟩ twoCommits (barriers.and orderly)
    reached).1 (fun _ => true) ⟨fun _ => rfl, ready⟩
  exact ⟨h, reached, committed, spec.1 committed, spec.2 set⟩

end Zenus.Fs.Journal
