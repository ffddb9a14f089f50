import Zenus.Fs.JournalLog

/-! # Crashes during a transaction

The commit copies the redo images to their targets while the header still says
ACTIVE, and the replay only looks at COMMITTED headers.  A crash between two target
writes therefore leaves one target new and the other old, and the replay leaves it
at that.  A transaction whose writes all go to one block is safe: the block reaches
the disk in one sector write, and a replay of the same images writes the same
sector again.
-/

namespace Zenus.Fs.Journal

open Sector List Nat
open Function (update update_of_ne update_self)

/-! ## A transaction and what a crash leaves of it -/

/-- The writes of a transaction: target block and data.  A refused write ends it. -/
def journalWrites : List (Nat × List UInt8) → System → Option System
  | [], w => some w
  | (target, data) :: rest, w =>
    match journalWrite w target data with
    | (true, w) => journalWrites rest w
    | (false, _) => none

def transaction (deviceFlush : Store → Bool) (writes : List (Nat × List UInt8)) (w : System) :
    Option System :=
  match journalBegin w with
  | (false, _) => none
  | (true, w) => (journalWrites writes w).map fun w => (journalCommit deviceFlush w).2

/-- A machine that has just started over a surviving disk: its cache is cold. -/
def Restarted (w : System) (d : Key → Sector) : Prop := w.store = .cold { data := d }

def recovered (w : System) (devId startBlock numBlocks : Nat) : Key → Sector :=
  (journalReplay w devId startBlock numBlocks).2.store.disk.data

/-- The disk with all writes of a transaction carried out. -/
def written (devId : Nat) : List (Nat × List UInt8) → (Key → Sector) → Key → Sector
  | [], d => d
  | (target, data) :: rest, d =>
    written devId rest (update d (devId, target) (image data))

/-- Each target block is as in `before`, or each is as in `after`. -/
def AllOrNothing (devId : Nat) (writes : List (Nat × List UInt8)) (before after d : Key → Sector) :
    Prop :=
  (∀ e ∈ writes, d (devId, e.1) = before (devId, e.1)) ∨
    ∀ e ∈ writes, d (devId, e.1) = after (devId, e.1)

def entriesOf (writes : List (Nat × List UInt8)) : List (Nat × Sector) :=
  writes.map fun e => (e.1, image e.2)

variable {dev target : Nat} {k : Key} {w w' : System} {buf : Sector} {A B : Key → Sector}
  {writes : List (Nat × List UInt8)} {es : List (Nat × Sector)}

theorem written_congr (writes : List (Nat × List UInt8))
    (same : A k = B k) : written dev writes A k = written dev writes B k := by
  induction writes generalizing A B with
  | nil => exact same
  | cons e writes ih =>
    obtain ⟨target, data⟩ := e
    apply ih
    by_cases here : k = (dev, target)
    · rw [here, update_self, update_self]
    · rw [update_of_ne here, update_of_ne here, same]

theorem install_entriesOf
    (nonzero : ∀ e ∈ writes, e.1 ≠ 0) : install dev (entriesOf writes) A = written dev writes A := by
  induction writes generalizing A with
  | nil => rfl
  | cons e writes ih =>
    obtain ⟨target, data⟩ := e
    rw [entriesOf, map_cons, install, if_neg (nonzero _ (.head _)), written]
    exact ih fun e' member => nonzero e' (.tail _ member)

theorem install_named (nonzero : target ≠ 0) (named : ∃ e ∈ es, e.1 = target) :
    install dev es A (dev, target) = install dev es B (dev, target) := by
  -- the induction needs the case in which an earlier entry has set the block already
  have same : ∀ (es : List (Nat × Sector)) (A B : Key → Sector),
      ((∃ e ∈ es, e.1 = target) ∨ A (dev, target) = B (dev, target)) →
      install dev es A (dev, target) = install dev es B (dev, target) := by
    intro es
    induction es with
    | nil =>
      rintro A B (⟨e, member, _⟩ | equal)
      · exact absurd member not_mem_nil
      · exact equal
    | cons e es ih =>
      obtain ⟨t, x⟩ := e
      intro A B named
      apply ih
      by_cases here : t = target
      · subst here
        rw [if_neg nonzero, if_neg nonzero, update_self, update_self]
        exact .inr rfl
      · rcases named with ⟨e', member, rfl⟩ | equal
        · cases mem_cons.mp member with
          | inl first => exact absurd (congrArg Prod.fst first).symm here
          | inr later => exact .inl ⟨e', later, rfl⟩
        · have other : (dev, target) ≠ (dev, t) := fun eq => here (Prod.mk.inj eq).2.symm
          refine .inr ?_
          split
          · exact equal
          · rw [update_of_ne other, update_of_ne other, equal]
  exact same es A B (.inl named)

variable {p : Place} {s : Store} {A B d : Key → Sector} {S : (Key → Sector) → Prop}
  {st target limit n : Nat} {es es' : List (Nat × Sector)} {before after x : Sector}

/-! ## What a replay makes of a disk -/

/-- All entries are for one block outside of the journal. -/
structure OneBlock (p : Place) (target : Nat) (es : List (Nat × Sector)) : Prop where
  single : ∀ e ∈ es, e.1 = target
  outside : ¬ p.Holds (p.dev, target)

theorem OneBlock.toOutside (one : OneBlock p target es) : Outside p es := by
  intro e member _
  rw [one.single e member]
  exact one.outside

theorem OneBlock.uncrowded (one : OneBlock p target es) :
    Uncrowded p (targetKeys p.dev (es.map Prod.fst)) := by
  have few : (targetKeys p.dev (es.map Prod.fst)).card < WAYS := by
    have sub : targetKeys p.dev (es.map Prod.fst) ⊆ {(p.dev, target)} := by
      intro k member
      rw [targetKeys, mem_toFinset, map_map] at member
      obtain ⟨e, named, rfl⟩ := mem_map.mp member
      rw [Finset.mem_singleton, Function.comp_apply, one.single e named]
    have card := Finset.card_le_card sub
    rw [Finset.card_singleton] at card
    exact lt_of_le_of_lt card (by decide)
  exact ⟨fun k _ => sparse_of_few few k, fun i _ => sparse_of_few few _⟩

/-- The block is old or new, and a journal the replay would act on makes it new. -/
structure Recoverable (p : Place) (target : Nat) (before after : Sector) (d : Key → Sector) : Prop where
  block : d (p.dev, target) = before ∨ d (p.dev, target) = after
  redo : (d p.header).u32At 12 = JNL_STATE_COMMITTED →
    0 < replayEntryLimit ((d p.header).u32At 8) p.num →
    ∃ es, Logged p d JNL_STATE_COMMITTED es ∧ OneBlock p target es ∧
      (target ≠ 0 → ∀ A, install p.dev es A (p.dev, target) = after)

theorem journalReplay_eq (read : bcRead w.store p.dev p.start = (some buf, s)) :
    (journalReplay w p.dev p.start p.num).2 =
      if buf.u32At 0 = JOURNAL_MAGIC ∧ buf.u32At 12 = JNL_STATE_COMMITTED ∧
          0 < replayEntryLimit (buf.u32At 8) p.num then
        ⟨{ devId := p.dev, startBlock := p.start, numBlocks := p.num, sequence := 0, active := false },
          redo p.dev p.start p.num (replayEntryLimit (buf.u32At 8) p.num) buf s⟩
      else { w with store := s } := by
  unfold journalReplay
  rw [read]
  dsimp only
  by_cases magic : buf.u32At 0 = JOURNAL_MAGIC
  · by_cases state : buf.u32At 12 = JNL_STATE_COMMITTED
    · by_cases none : replayEntryLimit (buf.u32At 8) p.num = 0
      · rw [if_neg (not_not.mpr magic), if_neg (not_not.mpr state), if_pos none,
          if_neg (fun all => absurd none (ne_of_gt all.2.2))]
      · rw [if_neg (not_not.mpr magic), if_neg (not_not.mpr state), if_neg none,
          if_pos ⟨magic, state, pos_of_ne_zero none⟩]
    · rw [if_neg (not_not.mpr magic), if_pos state, if_neg (fun all => state all.2.1)]
  · rw [if_pos magic, if_neg (fun all => magic all.1)]

theorem journalReplay_store (read : bcRead w.store p.dev p.start = (some buf, s)) :
    (journalReplay w p.dev p.start p.num).2.store =
      if buf.u32At 0 = JOURNAL_MAGIC ∧ buf.u32At 12 = JNL_STATE_COMMITTED ∧
          0 < replayEntryLimit (buf.u32At 8) p.num then
        redo p.dev p.start p.num (replayEntryLimit (buf.u32At 8) p.num) buf s
      else s := by
  rw [journalReplay_eq read]
  split_ifs
  · dsimp only
  · dsimp only

theorem redo_guarded {Q : Finset Key} (guarded : Guarded s A B ∅ S)
    (always : ∀ d, S d) (room : limit ≤ capacityForBlocks p.num) (uncrowded : Uncrowded p Q)
    (named : ∀ i < limit, (p.dev, buf.u32At (targetOff i)) ∈ Q) :
    ∃ C, C = update
        (copyAll p (fun i => buf.u32At (targetOff i)) (List.range limit) A) p.header
        (buf.putU32 12 JNL_STATE_EMPTY) ∧
      Guarded (redo p.dev p.start p.num limit buf s) C C ∅ S := by
  have copying := replayEntries_guarded uncrowded (List.range limit)
    (fun i member => lt_of_lt_of_le (mem_range.mp member) room)
    (fun i member => named i (mem_range.mp member)) (guarded.widen (Finset.empty_subset Q))
  obtain ⟨s₁, flush, flushed⟩ := copying.flush fun d _ => always d
  obtain ⟨s₂, write, retired⟩ :=
    flushed.write (sparse_empty p.header) (buf.putU32 12 JNL_STATE_EMPTY)
  obtain ⟨s₃, flush', flushed'⟩ := retired.flush fun d _ => always d
  refine ⟨_, rfl, ?_⟩
  have write : bcWrite s₁ p.dev p.start (buf.putU32 12 JNL_STATE_EMPTY) = (true, s₂) := write
  rw [redo, flush]
  simp only [write, flush']
  exact flushed'.invalidate p.dev p.start

theorem Recoverable.recovered (good : Recoverable p target before after d)
    (outside : ¬ p.Holds (p.dev, target)) (restarted : Restarted w d) :
    recovered w p.dev p.start p.num (p.dev, target) = before ∨
      recovered w p.dev p.start p.num (p.dev, target) = after := by
  have start : Guarded w.store d d ∅ fun _ => True := restarted ▸ Guarded.cold trivial
  obtain ⟨s, read, guarded⟩ := start.read (sparse_empty p.header)
  have read : bcRead w.store p.dev p.start = (some (d p.header), s) := read
  rw [Journal.recovered, journalReplay_store read]
  split_ifs with committed
  · obtain ⟨es, logged, one, new⟩ := good.redo committed.2.1 committed.2.2
    rw [logged.limit]
    obtain ⟨C, final, last⟩ := redo_guarded guarded (fun _ => trivial) logged.room one.uncrowded
      fun i inside => logged.named inside
    have other : (p.dev, target) ≠ p.header := fun same => outside (same ▸ p.holds_header)
    rw [last.disk, final, update_of_ne other, logged.copyAll one.toOutside fun i _ => rfl]
    by_cases zero : target = 0
    · have kept : installed p es d (p.dev, target) = d (p.dev, target) :=
        install_other p.dev fun e member nonzero =>
          absurd ((one.single e member).trans zero) nonzero
      rw [kept]
      exact good.block
    · exact .inr (new zero d)
  · rw [guarded.disk]
    exact good.block

/-! ## What a crash during the transaction leaves -/

theorem recoverable_of_idle (block : d (p.dev, target) = before ∨ d (p.dev, target) = after)
    (idle : (d p.header).u32At 12 ≠ JNL_STATE_COMMITTED ∨ (d p.header).u32At 8 = 0) :
    Recoverable p target before after d := by
  refine ⟨block, fun committed some => ?_⟩
  cases idle with
  | inl other => exact absurd committed other
  | inr none =>
    rw [none, replayEntryLimit, zero_min] at some
    exact absurd some (lt_irrefl 0)

theorem active_ne_committed : JNL_STATE_ACTIVE ≠ JNL_STATE_COMMITTED := by decide

theorem recoverable_of_active (mix : Mix A B d)
    (first : Logged p A JNL_STATE_ACTIVE es) (second : Logged p B JNL_STATE_ACTIVE es')
    (old : A (p.dev, target) = before) (new : B (p.dev, target) = before ∨ B (p.dev, target) = after) :
    Recoverable p target before after d := by
  apply recoverable_of_idle
  · cases mix (p.dev, target) with
    | inl same => exact .inl (same.trans old)
    | inr same => rwa [same]
  · refine .inl ?_
    cases mix p.header with
    | inl same =>
      rw [same, first.state]
      exact active_ne_committed
    | inr same =>
      rw [same, second.state]
      exact active_ne_committed

theorem appended_other (room : n < capacityForBlocks p.num)
    (outside : ¬ p.Holds k) : appended p A n target x k = A k := by
  have header : k ≠ p.header := fun same => outside (same ▸ p.holds_header)
  have data : k ≠ p.data n := fun same => outside (same ▸ p.holds_data room)
  rw [appended, update_of_ne header, update_of_ne data]

theorem restated_other (outside : ¬ p.Holds k) : restated p A st k = A k := by
  have header : k ≠ p.header := fun same => outside (same ▸ p.holds_header)
  exact update_of_ne header _ _

theorem cleared_other (outside : ¬ p.Holds k) : cleared p A k = A k := by
  have header : k ≠ p.header := fun same => outside (same ▸ p.holds_header)
  exact update_of_ne header _ _

theorem journalWrites_logged
    (guarded : Guarded w.store A A ∅ (Recoverable p target before after)) (on : p.On w.jnl)
    (logged : Logged p A JNL_STATE_ACTIVE es) (old : A (p.dev, target) = before)
    (single : ∀ e ∈ writes, e.1 = target) (outside : ¬ p.Holds (p.dev, target))
    (run : journalWrites writes w = some w') :
    ∃ A', Guarded w'.store A' A' ∅ (Recoverable p target before after) ∧ w'.jnl = w.jnl ∧
      Logged p A' JNL_STATE_ACTIVE (es ++ entriesOf writes) ∧ A' (p.dev, target) = before := by
  induction writes generalizing w A es with
  | nil =>
    obtain rfl : w = w' := Option.some.inj run
    exact ⟨A, guarded, rfl, by simpa [entriesOf] using logged, old⟩
  | cons e writes ih =>
    obtain ⟨t, data⟩ := e
    obtain rfl : t = target := single _ (.head _)
    rw [journalWrites] at run
    split at run
    · next w₁ accepted =>
      have survives : ∀ d, Mix A (appended p A es.length t (image data)) d →
          Recoverable p t before after d := by
        intro d mix
        by_cases fits : es.length < capacityForBlocks p.num ∧ t < 2 ^ 32
        · refine recoverable_of_active mix logged
            (logged.appended (image data) fits.1 fits.2) old (.inl ?_)
          rw [appended_other fits.1 outside, old]
        · -- an accepted write had room and a 32-bit target
          have always := (journalWrite_spec
            ⟨guarded.shows, guarded.disk, guarded.pending, fun _ _ => trivial⟩ on logged
            accepted fun _ _ => trivial).1 rfl
          exact absurd ⟨always.1, always.2.1⟩ fits
      obtain ⟨room, small, same, guarded₁⟩ :=
        (journalWrite_spec guarded on logged accepted survives).1 rfl
      have logged₁ := logged.appended (image data) room small
      have old₁ : appended p A es.length t (image data) (p.dev, t) = before := by
        rw [appended_other room outside, old]
      obtain ⟨A', guarded', jnl, logged', old'⟩ := ih guarded₁ (same ▸ on) logged₁ old₁
        (fun e member => single e (.tail _ member)) run
      refine ⟨A', guarded', jnl.trans same, ?_, old'⟩
      rwa [append_assoc, singleton_append] at logged'
    · simp at run

/-- Nothing is dirty, and the cache agrees with the disk. -/
structure Clean (s : Store) : Prop where
  shows : s.Shows s.disk.data
  settled : s.view.pending = ∅

theorem Clean.guarded (clean : Clean s) (safe : ∀ d ∈ s.disk.states, S d) :
    Guarded s s.disk.data s.disk.data ∅ S :=
  ⟨clean.shows, rfl, by rw [clean.settled, Finset.coe_empty], safe⟩

theorem journalCommit_recoverable (deviceFlush : Store → Bool)
    (guarded : Guarded w.store A A ∅ (Recoverable p target before after)) (on : p.On w.jnl)
    (set : w.jnl.devId ≠ 0xFF) (active : w.jnl.active = true)
    (logged : Logged p A JNL_STATE_ACTIVE es) (old : A (p.dev, target) = before) (one : OneBlock p target es)
    (new : target ≠ 0 → es ≠ [] → ∀ A, install p.dev es A (p.dev, target) = after) :
    ∀ d ∈ (journalCommit deviceFlush w).2.store.disk.states, Recoverable p target before after d := by
  have outside := one.toOutside
  have logged₁ := logged.installed outside
  have logged₂ := logged.marked outside
  have logged₃ : Logged p (closed p es A) JNL_STATE_EMPTY [] := logged₂.cleared
  have block₁ : installed p es A (p.dev, target) = before ∨ installed p es A (p.dev, target) = after := by
    by_cases changes : target ≠ 0 ∧ es ≠ []
    · exact .inr (new changes.1 changes.2 A)
    · refine .inl (Eq.trans (install_other p.dev ?_) old)
      intro e member nonzero
      exact absurd ⟨one.single e member ▸ nonzero, ne_nil_of_mem member⟩ changes
  have block₂ : marked p es A (p.dev, target) = installed p es A (p.dev, target) :=
    restated_other one.outside
  have block₃ : closed p es A (p.dev, target) = installed p es A (p.dev, target) :=
    (cleared_other one.outside).trans block₂
  -- a committed header is followed by the images it was written for
  have redo : ∀ d, d (p.dev, target) = before ∨ d (p.dev, target) = after →
      (∀ k, p.Holds k → d k = marked p es A k) → Recoverable p target before after d := by
    intro d block same
    refine ⟨block, fun _ some => ?_⟩
    have found := logged₂.congr same
    refine ⟨es, found, one, fun nonzero => new nonzero ?_⟩
    rw [found.limit] at some
    exact ne_nil_of_length_pos some
  have result := journalCommit_spec deviceFlush guarded on set active logged outside one.uncrowded
    (fun d mix => recoverable_of_active mix logged logged₁ old block₁) ?_ ?_
  · cases equal : journalCommit deviceFlush w with
    | mk ok w' =>
      rw [equal] at result
      cases result with
      | unbarriered _ guarded' | uncleared _ guarded' | done guarded' => exact guarded'.safe
  · intro d mix
    have block : d (p.dev, target) = before ∨ d (p.dev, target) = after := by
      cases mix (p.dev, target) with
      | inl same => rwa [same]
      | inr same => rwa [same, block₂]
    cases mix p.header with
    | inl same =>
      refine recoverable_of_idle block (.inl ?_)
      rw [same, logged₁.state]
      exact active_ne_committed
    | inr same =>
      refine redo d block fun k mine => ?_
      by_cases header : k = p.header
      · rwa [header]
      · have data : marked p es A k = installed p es A k := update_of_ne header _ _
        cases mix k with
        | inl kept => exact kept.trans data.symm
        | inr kept => exact kept
  · intro d mix
    have block : d (p.dev, target) = before ∨ d (p.dev, target) = after := by
      cases mix (p.dev, target) with
      | inl same => rwa [same, block₂]
      | inr same => rwa [same, block₃]
    cases mix p.header with
    | inl same =>
      refine redo d block fun k mine => ?_
      by_cases header : k = p.header
      · rwa [header]
      · have data : closed p es A k = marked p es A k := update_of_ne header _ _
        cases mix k with
        | inl kept => exact kept
        | inr kept => exact kept.trans data
    | inr same =>
      refine recoverable_of_idle block (.inr ?_)
      rw [same, logged₃.entries]
      rfl

/-- A transaction all of whose writes go to one block outside of the journal, opened
    over an empty header while no sector is dirty, is atomic: wherever a crash cuts
    its sector writes, the replay leaves the block as it was or as written. -/
theorem transaction_allOrNothing (p : Place) (deviceFlush : Store → Bool)
    (writes : List (Nat × List UInt8)) (target : Nat) (w w' : System) (on : p.On w.jnl)
    (clean : Clean w.store) (fresh : w.store.disk.past = [])
    (empty : (w.store.disk.data p.header).u32At 8 = 0)
    (single : ∀ e ∈ writes, e.1 = target) (outside : ¬ p.Holds (p.dev, target))
    (run : transaction deviceFlush writes w = some w') :
    ∀ d ∈ w'.store.disk.states, ∀ r, Restarted r d →
      AllOrNothing p.dev writes w.store.disk.data (written p.dev writes w.store.disk.data)
        (recovered r p.dev p.start p.num) := by
  let A := w.store.disk.data
  let before := A (p.dev, target)
  let after := written p.dev writes A (p.dev, target)
  have start : Guarded w.store A A ∅ (Recoverable p target before after) := by
    refine clean.guarded fun d seen => ?_
    rw [Disk.states, fresh] at seen
    cases mem_singleton.mp seen
    exact recoverable_of_idle (.inl rfl) (.inr empty)
  rw [transaction] at run
  split at run
  · simp at run
  next w₁ begun =>
    obtain ⟨magic, set, idle⟩ := journalBegin_magic start on begun
    have logged₀ : Logged p A ((A p.header).u32At 12) [] :=
      ⟨magic, rfl, empty, rfl, Nat.zero_le _⟩
    have logged₁ : Logged p (restated p A JNL_STATE_ACTIVE) JNL_STATE_ACTIVE [] :=
      logged₀.restated (by decide)
    have old₁ : restated p A JNL_STATE_ACTIVE (p.dev, target) = before := restated_other outside
    obtain ⟨j₁, s₁, begun', on₁, active₁, set₁, guarded₁⟩ :=
      journalBegin_spec start on set idle magic (by
        intro d mix
        apply recoverable_of_idle
        · cases mix (p.dev, target) with
          | inl same => exact .inl same
          | inr same => exact .inl (same.trans old₁)
        · cases mix p.header with
          | inl same => exact .inr (same ▸ empty)
          | inr same => exact .inr (same ▸ logged₁.entries))
    obtain rfl : w₁ = ⟨j₁, s₁⟩ := (Prod.mk.inj (begun.symm.trans begun')).2
    obtain ⟨w₂, wrote, rfl⟩ := Option.map_eq_some_iff.mp run
    obtain ⟨A₂, guarded₂, jnl₂, logged₂, old₂⟩ :=
      journalWrites_logged guarded₁ on₁ logged₁ old₁ single outside wrote
    have one : OneBlock p target (entriesOf writes) := ⟨forall_mem_map.mpr single, outside⟩
    have new : target ≠ 0 → entriesOf writes ≠ [] →
        ∀ B, install p.dev (entriesOf writes) B (p.dev, target) = after := by
      intro nonzero some B
      obtain ⟨e, member⟩ := exists_mem_of_ne_nil _ some
      rw [install_named (B := A) nonzero ⟨e, member, one.single e member⟩,
        install_entriesOf fun e' named => single e' named ▸ nonzero]
    have recoverable := journalCommit_recoverable deviceFlush guarded₂ (jnl₂ ▸ on₁)
      (by rw [jnl₂]; exact set₁ ▸ set) (by rw [jnl₂]; exact active₁) logged₂ old₂ one new
    intro d seen r restarted
    cases (recoverable d seen).recovered outside restarted with
    | inl kept => exact .inl fun e member => by rw [single e member]; exact kept
    | inr changed => exact .inr fun e member => by rw [single e member]; exact changed

/-- A freshly formatted journal of four blocks at block 10 of device 0. -/
def formatted : System where
  jnl := { devId := 0, startBlock := 10, numBlocks := 4, sequence := 0, active := false }
  store := .cold
    { data := update (fun _ => Sector.zero) (0, 10) (encodeHeader
        { magic := JOURNAL_MAGIC, sequence := 0, numEntries := 0, state := JNL_STATE_EMPTY
          reserved := 0, targets := fun _ => 0 }) }

/-- A machine restarted over a disk, with its statics unset. -/
def restart (d : Key → Sector) : System := ⟨.unset, .cold { data := d }⟩

def twoBlocks : List (Nat × List UInt8) := [(20, [1]), (21, [1])]

/-- The crash comes after the first of two target writes of the commit. -/
theorem crash_between_targets :
    ∃ w', transaction (fun _ => true) twoBlocks formatted = some w' ∧
      ∃ d ∈ w'.store.disk.states, ∃ r, Restarted r d ∧
        ¬ AllOrNothing 0 twoBlocks formatted.store.disk.data
          (written 0 twoBlocks formatted.store.disk.data) (recovered r 0 10 4) := by
  have run : (transaction (fun _ => true) twoBlocks formatted).bind (fun w' =>
      (w'.store.disk.states[3]?).map fun d =>
        decide ((recovered (restart d) 0 10 4 (0, 20)).byte 0 = 1 ∧
          (recovered (restart d) 0 10 4 (0, 21)).byte 0 = 0)) = some true := by decide +kernel
  have old : (formatted.store.disk.data (0, 20)).byte 0 = 0 := by decide +kernel
  have new : (written 0 twoBlocks formatted.store.disk.data (0, 21)).byte 0 = 1 := by decide +kernel
  obtain ⟨w', reached, rest⟩ := Option.bind_eq_some_iff.mp run
  obtain ⟨d, cut, holds⟩ := Option.map_eq_some_iff.mp rest
  obtain ⟨first, second⟩ := of_decide_eq_true holds
  refine ⟨w', reached, d, mem_of_getElem? cut, restart d, rfl, ?_⟩
  rintro (nothing | all)
  · have same := nothing (20, [1]) (by decide)
    rw [same, old] at first
    cases first
  · have same := all (21, [1]) (by decide)
    rw [same, new] at second
    cases second

def oneBlock : List (Nat × List UInt8) := [(20, [1]), (20, [2, 3])]

theorem transaction_allOrNothing_oneBlock :
    ∃ w', transaction (fun _ => true) oneBlock formatted = some w' ∧
      w'.store.disk.states.length = 9 ∧
      ∀ d ∈ w'.store.disk.states, ∀ r, Restarted r d →
        AllOrNothing 0 oneBlock formatted.store.disk.data
          (written 0 oneBlock formatted.store.disk.data) (recovered r 0 10 4) := by
  let p : Place := ⟨0, 10, 4, by decide⟩
  have run : (transaction (fun _ => true) oneBlock formatted).map (fun w' =>
      w'.store.disk.states.length) = some 9 := by decide +kernel
  obtain ⟨w', reached, count⟩ := Option.map_eq_some_iff.mp run
  have clean : Clean formatted.store := by
    have cold : Guarded formatted.store _ _ ∅ fun _ => True := Guarded.cold trivial
    refine ⟨cold.shows, Set.eq_empty_of_subset_empty ?_⟩
    simpa using cold.pending
  exact ⟨w', reached, count, transaction_allOrNothing p (fun _ => true) oneBlock 20 formatted w'
    ⟨rfl, rfl, rfl⟩ clean rfl (by decide +kernel) (by decide) (by decide) reached⟩

end Zenus.Fs.Journal
