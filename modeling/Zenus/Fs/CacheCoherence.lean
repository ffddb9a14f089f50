import Zenus.Fs.BlockCache
import Zenus.Lib.WriteBack
import Mathlib.Data.List.Nodup

/-! # The sector cache reads like a plain store

Seen through its window lookup, the cache is a write-back cache in front of the
disk, provided every cached sector lies in its own window.  Each call is described
once against the map it shows: what it returns, what it does to the map, and what
it writes to the disk.
-/

namespace Zenus.Fs

open Lib.WriteBack Function List CacheEntry Store BlockCache Nat

/-! ## Windows -/

theorem mask_eq_mod (x : Nat) : x &&& (CACHE_SIZE - 1) = x % CACHE_SIZE :=
  and_two_pow_sub_one_eq_mod x 9

theorem mem_window {dev block idx : Nat} :
    idx ∈ window dev block ↔ ∃ i < WAYS, (hash dev block + i) % CACHE_SIZE = idx := by
  simp [window, mask_eq_mod]

theorem lt_of_mem_window {dev block idx : Nat} (probed : idx ∈ window dev block) : idx < CACHE_SIZE := by
  obtain ⟨i, -, rfl⟩ := mem_window.mp probed
  exact mod_lt _ (by decide)

variable (dev block : Nat)

theorem hash_lt : hash dev block < CACHE_SIZE := by
  simp only [hash, mask_eq_mod]
  exact mod_lt _ (by decide)

theorem hash_mem_window : hash dev block ∈ window dev block := by
  refine mem_window.mpr ⟨0, by decide, ?_⟩
  rw [add_zero, mod_eq_of_lt (hash_lt dev block)]

theorem window_nodup : (window dev block).Nodup := by
  refine nodup_range.map_on ?_
  intro i first j second same
  simp only [mask_eq_mod] at same
  simp only [mem_range, WAYS, CACHE_SIZE] at *
  omega

/-! ## The cache as a write-back cache -/

def CacheEntry.line (e : CacheEntry) : Option (Line Key Sector) :=
  if e.valid then some ⟨(e.devId, e.block), e.data, e.dirty⟩ else none

/-- The slot holds nothing that still has to be written. -/
def CacheEntry.Idle (e : CacheEntry) : Prop := e.valid = false ∨ e.dirty = false

instance (e : CacheEntry) : Decidable e.Idle := inferInstanceAs (Decidable (_ ∨ _))

namespace Store

def view (s : Store) : Cache Nat Key Sector where
  lines idx := if idx < CACHE_SIZE then (s.cache.entries idx).line else none
  back := s.disk.data

/-- The cache shows the map `A` over devices that never refuse: it is coherent
    with `A`, each cached sector lies in its window, and no empty slot is dirty. -/
structure Shows (s : Store) (A : Key → Sector) : Prop where
  coherent : Coherent s.view A
  placed : ∀ idx a, s.view.lines idx = some a → idx ∈ window a.key.1 a.key.2
  empty : ∀ idx < CACHE_SIZE, (s.cache.entries idx).valid = false →
    (s.cache.entries idx).dirty = false
  works : s.disk.Works

variable {s t : Store} {A B : Key → Sector} {dev block idx j n : Nat} {a : Line Key Sector} {e : CacheEntry}
  {c : BlockCache}

theorem view_lines (inside : idx < CACHE_SIZE) :
    s.view.lines idx = (s.cache.entries idx).line := if_pos inside

theorem lt_of_line (found : s.view.lines idx = some a) : idx < CACHE_SIZE := by
  by_contra outside
  simp only [view, if_neg outside] at found
  simp at found

theorem settled_iff (inside : idx < CACHE_SIZE) : s.view.Settled idx ↔ (s.cache.entries idx).Idle := by
  unfold Cache.Settled CacheEntry.Idle
  rw [view_lines inside]
  cases valid : (s.cache.entries idx).valid <;> simp [line, valid]

theorem view_setEntry (inside : idx < CACHE_SIZE) (e : CacheEntry) :
    (s.setEntry idx e).view = s.view.put idx e.line := by
  unfold view Cache.put setEntry BlockCache.setEntry
  congr 1
  funext j
  by_cases same : j = idx
  · subst same
    simp [inside]
  · simp [update_of_ne same]

theorem shows_cold {disk : Disk} (works : disk.Works) : (cold disk).Shows disk.data := by
  have none : ∀ idx, (cold disk).view.lines idx = none := by
    intro idx
    simp [view, cold, new, line]
  refine ⟨⟨?_, ?_, fun _ _ => rfl⟩, ?_, fun _ _ _ => rfl, works⟩
  · intro i j a b found
    simp [none] at found
  · intro i a found
    simp [none] at found
  · intro i a found
    simp [none] at found

theorem setEntry_empty (fresh : e.valid = false → e.dirty = false)
    (empty : ∀ j < CACHE_SIZE, (s.cache.entries j).valid = false → (s.cache.entries j).dirty = false)
    (inside : j < CACHE_SIZE) (invalid : ((s.setEntry idx e).cache.entries j).valid = false) :
    ((s.setEntry idx e).cache.entries j).dirty = false := by
  by_cases slot : j = idx
  · subst slot
    have set : (s.setEntry j e).cache.entries j = e := by simp [setEntry, BlockCache.setEntry]
    rw [set] at invalid ⊢
    exact fresh invalid
  · have unchanged : (s.setEntry idx e).cache.entries j = s.cache.entries j :=
      update_of_ne slot _ _
    rw [unchanged] at invalid ⊢
    exact empty j inside invalid

theorem Shows.setEntry (shows : s.Shows A)
    (inside : idx < CACHE_SIZE) (coherent : Coherent (s.view.put idx e.line) B)
    (placed : ∀ a, e.line = some a → idx ∈ window a.key.1 a.key.2)
    (fresh : e.valid = false → e.dirty = false) : (s.setEntry idx e).Shows B := by
  refine ⟨view_setEntry inside e ▸ coherent, ?_, fun j => setEntry_empty fresh shows.empty, shows.works⟩
  intro j a found
  rw [view_setEntry inside e] at found
  obtain ⟨rfl, new⟩ | ⟨_, old⟩ := put_lines_cases found
  · exact placed a new
  · exact shows.placed j a old

theorem Shows.disk_eq (shows : s.Shows A) (settled : s.view.pending = ∅) : s.disk.data = A := by
  funext k
  apply shows.coherent.stored k
  intro i a found same
  by_contra dirty
  exact (settled ▸ Set.notMem_empty k : k ∉ s.view.pending)
    ⟨i, a, found, same, by simpa using dirty⟩

/-! ## Lookup -/

theorem findEntry_some (found : s.cache.findEntry dev block = some idx) :
    idx ∈ window dev block ∧ (s.cache.entries idx).valid = true ∧
      (s.cache.entries idx).devId = dev ∧ (s.cache.entries idx).block = block := by
  have probed := mem_of_find?_eq_some found
  have hit := find?_some found
  simp only [Bool.and_eq_true, beq_iff_eq] at hit
  exact ⟨probed, hit.1.1, hit.1.2, hit.2⟩

theorem view_of_findEntry (found : s.cache.findEntry dev block = some idx) :
    s.view.lines idx = some
      ⟨(dev, block), (s.cache.entries idx).data, (s.cache.entries idx).dirty⟩ := by
  obtain ⟨probed, valid, devId, number⟩ := findEntry_some found
  rw [view_lines (lt_of_mem_window probed), line, if_pos valid, devId, number]

theorem Shows.absent_of_findEntry (shows : s.Shows A)
    (missed : s.cache.findEntry dev block = none) : s.view.Absent (dev, block) := by
  intro idx a found same
  have inside := lt_of_line found
  have probed := shows.placed idx a found
  rw [same] at probed
  have mismatch := find?_eq_none.mp missed idx probed
  rw [view_lines inside, line] at found
  split at found
  · next valid =>
    cases found
    simp only [Prod.mk.injEq] at same
    simp [valid, same] at mismatch
  · simp at found

/-! ## Eviction -/

/-- A slot of the block's window needs no writing. -/
def Free (c : BlockCache) (dev block : Nat) : Prop := ∃ idx ∈ window dev block, (c.entries idx).Idle

/-- Every slot of the table holds a sector that still has to be written. -/
def Full (c : BlockCache) : Prop := ∀ idx < CACHE_SIZE, ¬ (c.entries idx).Idle

instance (c : BlockCache) (dev block : Nat) : Decidable (Free c dev block) :=
  inferInstanceAs (Decidable (∃ idx ∈ window dev block, (c.entries idx).Idle))

instance (c : BlockCache) : Decidable (Full c) :=
  inferInstanceAs (Decidable (∀ idx, idx < CACHE_SIZE → ¬ (c.entries idx).Idle))

theorem evictOne_of_free (free : Free c dev block) :
    ∃ idx ∈ window dev block, c.evictOne dev block = some idx ∧ (c.entries idx).Idle := by
  unfold evictOne
  cases empty : (window dev block).find? fun idx => !(c.entries idx).valid with
  | some idx =>
    have invalid := find?_some empty
    exact ⟨idx, mem_of_find?_eq_some empty, rfl, .inl (by simpa using invalid)⟩
  | none =>
    have valid := find?_eq_none.mp empty
    cases clean : (window dev block).find? fun idx => !(c.entries idx).dirty with
    | some idx =>
      have settled := find?_some clean
      exact ⟨idx, mem_of_find?_eq_some clean, rfl, .inr (by simpa using settled)⟩
    | none =>
      have dirty := find?_eq_none.mp clean
      obtain ⟨idx, probed, invalid | settled⟩ := free
      · exact absurd (valid idx probed) (by simp [invalid])
      · exact absurd (dirty idx probed) (by simp [settled])

theorem evictOne_of_full (full : Full c) : c.evictOne dev block = some (hash dev block) := by
  have busy : ∀ idx < CACHE_SIZE, (c.entries idx).valid = true ∧ (c.entries idx).dirty = true := by
    intro idx inside
    simpa [CacheEntry.Idle] using full idx inside
  have valid : ((window dev block).find? fun idx => !(c.entries idx).valid) = none :=
    find?_eq_none.mpr fun idx probed => by simp [(busy idx (lt_of_mem_window probed)).1]
  have dirty : ((window dev block).find? fun idx => !(c.entries idx).dirty) = none :=
    find?_eq_none.mpr fun idx probed => by simp [(busy idx (lt_of_mem_window probed)).2]
  have table : ((List.range CACHE_SIZE).find? fun idx =>
      !(c.entries idx).valid || !(c.entries idx).dirty) = none :=
    find?_eq_none.mpr fun idx inside => by simp [busy idx (mem_range.mp inside)]
  rw [evictOne, valid, dirty, table]
  rfl

/-! ## Writing one entry out -/

/-- The disk after a flush: as before, or with one more sector write. -/
def Grew (d d' : Disk) : Prop := d' = d ∨ d'.states = d'.data :: d.states

theorem Shows.flushEntry (shows : s.Shows A) (inside : idx < CACHE_SIZE) :
    ∃ s', s.flushEntry idx = (true, s') ∧ s'.Shows A ∧ s'.view = s.view.writeOut idx ∧
      Grew s.disk s'.disk ∧ (s.view.Settled idx → s'.disk = s.disk) := by
  have kept : ∀ t : Store, t.view = s.view.writeOut idx → ∀ j a, t.view.lines j = some a →
      j ∈ window a.key.1 a.key.2 := by
    intro t same j a found
    rw [same] at found
    obtain ⟨b, old, key, _⟩ := writeOut_lines_cases found
    exact key ▸ shows.placed j b old
  by_cases dirty : (s.cache.entries idx).dirty = true
  · have valid : (s.cache.entries idx).valid = true := by
      by_contra invalid
      exact absurd (shows.empty idx inside (by simpa using invalid)) (by simp [dirty])
    have here : s.view.lines idx = some ⟨((s.cache.entries idx).devId, (s.cache.entries idx).block),
        (s.cache.entries idx).data, true⟩ := by
      rw [view_lines inside, line, if_pos valid, dirty]
    let e := s.cache.entries idx
    let disk : Disk := { s.disk with
      data := update s.disk.data (e.devId, e.block) e.data
      past := s.disk.data :: s.disk.past }
    let t : Store := Store.setEntry { s with disk } idx { e with dirty := false }
    have flushed : s.flushEntry idx = (true, t) := by
      simp [Store.flushEntry, dirty, blockDeviceWrite, shows.works.writable, t, disk, e]
    have same : t.view = s.view.writeOut idx := by
      rw [writeOut_of_dirty here rfl, view_setEntry inside, line, if_pos valid]
      rfl
    have works : t.disk.Works := ⟨shows.works.readable, shows.works.writable⟩
    refine ⟨t, flushed, ⟨same ▸ shows.coherent.writeOut idx, kept t same, ?_, works⟩, same, .inr rfl, ?_⟩
    · exact fun j => setEntry_empty (fun _ => rfl) shows.empty
    · intro settled
      cases settled _ here
  · have settled : s.view.Settled idx := (settled_iff inside).mpr (.inr (by simpa using dirty))
    exact ⟨s, by simp [Store.flushEntry, dirty], shows, (writeOut_of_settled settled).symm, .inl rfl,
      fun _ => rfl⟩

/-! ## Bringing a sector in -/

/-- Over a victim of its own window, a block that is not cached is brought in
    clean.  The disk is only written if the victim was dirty. -/
theorem Shows.fetch (shows : s.Shows A) (absent : s.view.Absent (dev, block))
    (victim : s.cache.evictOne dev block = some idx) (probed : idx ∈ window dev block) :
    ∃ s', s.fetch dev block = (some idx, s') ∧ s'.Shows A ∧
      s'.view.lines idx = some ⟨(dev, block), A (dev, block), false⟩ ∧
      s'.view.pending ⊆ s.view.pending ∧ (s.view.Settled idx → s'.disk = s.disk) := by
  have inside := lt_of_mem_window probed
  obtain ⟨t, flushed, shown, same, -, quiet⟩ := shows.flushEntry inside
  have gone : t.view.Absent (dev, block) := same ▸ writeOut_absent absent
  have settled : t.view.Settled idx := same ▸ writeOut_settled s.view idx
  have stored : t.disk.data (dev, block) = A (dev, block) :=
    shown.coherent.stored (dev, block) fun i a found key => absurd key (gone i a found)
  let s' := t.setEntry idx
    { devId := dev, block, dirty := false, valid := true, data := t.disk.data (dev, block) }
  have fetched : s.fetch dev block = (some idx, s') := by
    simp [Store.fetch, victim, flushed, blockDeviceRead, shown.works.readable, s']
  have loaded : s'.view = t.view.load idx (dev, block) := view_setEntry inside _
  refine ⟨s', fetched, shown.setEntry inside (shown.coherent.load settled gone) ?_ (by simp), ?_, ?_, quiet⟩
  · intro a new
    cases new
    exact probed
  · rw [loaded, Cache.load, put_lines_self, ← stored]
    rfl
  · rw [loaded]
    exact pending_load.trans (same ▸ pending_writeOut)

/-- The lookup succeeds, the window has a slot to reuse, or the whole table is
    dirty: the cases in which a block ends up in its own window. -/
def Roomy (c : BlockCache) (dev block : Nat) : Prop :=
  (c.findEntry dev block).isSome = true ∨ Free c dev block ∨ Full c

instance (c : BlockCache) (dev block : Nat) : Decidable (Roomy c dev block) :=
  inferInstanceAs (Decidable (_ ∨ _))

theorem Shows.fetch_roomy (shows : s.Shows A) (missed : s.cache.findEntry dev block = none)
    (roomy : Roomy s.cache dev block) :
    ∃ idx s', s.fetch dev block = (some idx, s') ∧ s'.Shows A ∧
      s'.view.lines idx = some ⟨(dev, block), A (dev, block), false⟩ ∧
      s'.view.pending ⊆ s.view.pending ∧ (Free s.cache dev block → s'.disk = s.disk) := by
  have absent := shows.absent_of_findEntry missed
  by_cases free : Free s.cache dev block
  · obtain ⟨idx, probed, victim, idle⟩ := evictOne_of_free free
    obtain ⟨s', fetched, shown, here, pending, quiet⟩ := shows.fetch absent victim probed
    exact ⟨idx, s', fetched, shown, here, pending,
      fun _ => quiet ((settled_iff (lt_of_mem_window probed)).mpr idle)⟩
  · obtain hit | room | full := roomy
    · simp [missed] at hit
    · exact absurd room free
    · obtain ⟨s', fetched, shown, here, pending, -⟩ :=
        shows.fetch absent (evictOne_of_full full) (hash_mem_window dev block)
      exact ⟨hash dev block, s', fetched, shown, here, pending, fun room => absurd room free⟩

/-! ## The calls -/

theorem data_of_line (found : s.view.lines idx = some a) :
    (s.cache.entries idx).data = a.value ∧ (s.cache.entries idx).valid = true ∧
      ((s.cache.entries idx).devId, (s.cache.entries idx).block) = a.key := by
  rw [view_lines (lt_of_line found), line] at found
  split at found
  · next valid =>
    cases found
    exact ⟨rfl, valid, rfl⟩
  · simp at found

theorem Shows.readBlock (shows : s.Shows A) (roomy : Roomy s.cache dev block) (buf : List UInt8) :
    ∃ s', s.readBlock dev block buf = (true, (A (dev, block)).copyTo buf, s') ∧ s'.Shows A ∧
      s'.view.pending ⊆ s.view.pending ∧ (Free s.cache dev block → s'.disk = s.disk) := by
  unfold Store.readBlock
  split
  · next idx found =>
    have value := shows.coherent.cached idx _ (view_of_findEntry found)
    refine ⟨{ s with cache := { s.cache with hits := s.cache.hits + 1 } }, ?_, ?_, subset_rfl, fun _ => rfl⟩
    · rw [← value]
    · exact ⟨shows.coherent, shows.placed, shows.empty, shows.works⟩
  · next missed =>
    -- counting the miss leaves the table as it is
    let counted : Store := { s with cache := { s.cache with misses := s.cache.misses + 1 } }
    have shown : counted.Shows A :=
      ⟨shows.coherent, shows.placed, shows.empty, shows.works⟩
    have missed : counted.cache.findEntry dev block = none := missed
    obtain ⟨idx, s', fetched, shown', here, pending, quiet⟩ := shown.fetch_roomy missed roomy
    have value := (data_of_line here).1
    refine ⟨s', ?_, shown', pending, quiet⟩
    simp only [counted] at fetched
    simp only [fetched, value]

theorem Shows.overwrite (shows : s.Shows A) (found : s.view.lines idx = some a) (buf : List UInt8) :
    (s.overwrite idx buf).Shows (update A a.key ((A a.key).copyFrom buf)) ∧
      (s.overwrite idx buf).view.pending ⊆ insert a.key s.view.pending ∧
      (s.overwrite idx buf).disk = s.disk := by
  have inside := lt_of_line found
  obtain ⟨data, valid, key⟩ := data_of_line found
  have value := shows.coherent.cached idx a found
  let e : CacheEntry := { s.cache.entries idx with
    data := (s.cache.entries idx).data.copyFrom buf, dirty := true }
  have line : e.line = some ⟨a.key, (A a.key).copyFrom buf, true⟩ := by
    simp only [e, line, if_pos valid, key, data, value]
  have shown : (s.setEntry idx e).Shows (update A a.key ((A a.key).copyFrom buf)) := by
    refine shows.setEntry inside (line ▸ shows.coherent.store found _) ?_ (by simp [e, valid])
    intro b new
    cases line.symm.trans new
    exact shows.placed idx a found
  have pending : (s.setEntry idx e).view.pending ⊆ insert a.key s.view.pending := by
    rw [view_setEntry inside, line]
    exact pending_put
  exact ⟨shown, pending, rfl⟩

theorem Shows.writeBlock (shows : s.Shows A) (roomy : Roomy s.cache dev block) (buf : List UInt8) :
    ∃ s', s.writeBlock dev block buf = (true, s') ∧
      s'.Shows (update A (dev, block) ((A (dev, block)).copyFrom buf)) ∧
      s'.view.pending ⊆ insert (dev, block) s.view.pending ∧
      (Free s.cache dev block → s'.disk = s.disk) := by
  unfold Store.writeBlock
  split
  · next idx found =>
    obtain ⟨shown, pending, same⟩ := shows.overwrite (view_of_findEntry found) buf
    exact ⟨s.overwrite idx buf, rfl, shown, pending, fun _ => same⟩
  · next missed =>
    obtain ⟨idx, t, fetched, shown, here, pending, quiet⟩ := shows.fetch_roomy missed roomy
    obtain ⟨shown', pending', same⟩ := shown.overwrite here buf
    refine ⟨t.overwrite idx buf, by rw [fetched], shown', ?_, fun free => same.trans (quiet free)⟩
    exact pending'.trans (Set.insert_subset_insert pending)

/-- What a flush of `s` has reached at some point: the map is the same, the disk
    holds the map's value at some of the pending keys, and so did every state of
    the disk on the way. -/
structure Flushing (s : Store) (A : Key → Sector) (t : Store) : Prop where
  shown : t.Shows A
  pending : t.view.pending ⊆ s.view.pending
  mixed : ∀ d ∈ t.disk.states, d ∈ s.disk.states ∨
    ∀ k, d k = s.disk.data k ∨ (k ∈ s.view.pending ∧ d k = A k)
  data : ∀ k, t.disk.data k = s.disk.data k ∨ (k ∈ s.view.pending ∧ t.disk.data k = A k)

theorem Flushing.flushStep (flushing : Flushing s A t) (inside : idx < CACHE_SIZE) :
    ∃ t', flushStep (true, t) idx = (true, t') ∧ Flushing s A t' ∧ t'.view = t.view.writeOut idx := by
  by_cases busy : ((t.cache.entries idx).valid && (t.cache.entries idx).dirty) = true
  · obtain ⟨t', flushed, shown, same, grew, -⟩ := flushing.shown.flushEntry inside
    have stepped : Store.flushStep (true, t) idx = (true, t') := by
      simp only [Store.flushStep, busy, if_true, flushed, Bool.and_self]
    have data : ∀ k, t'.disk.data k = s.disk.data k ∨ (k ∈ s.view.pending ∧ t'.disk.data k = A k) := by
      intro k
      have back : t'.disk.data k = (t.view.writeOut idx).back k := by rw [← same]; rfl
      rw [back]
      obtain kept | ⟨dirty, written⟩ := flushing.shown.coherent.writeOut_back k
      · rw [kept]
        exact flushing.data k
      · exact .inr ⟨flushing.pending dirty, written⟩
    refine ⟨t', stepped, ⟨shown, ?_, ?_, data⟩, same⟩
    · exact (same ▸ pending_writeOut : t'.view.pending ⊆ t.view.pending).trans flushing.pending
    · intro d seen
      obtain unchanged | more := grew
      · exact flushing.mixed d (unchanged ▸ seen)
      · rw [more] at seen
        obtain rfl | old := mem_cons.mp seen
        · exact .inr data
        · exact flushing.mixed d old
  · have settled : t.view.Settled idx := by
      rw [settled_iff inside, CacheEntry.Idle]
      simpa [Bool.and_eq_true, imp_iff_not_or] using busy
    refine ⟨t, ?_, flushing, (writeOut_of_settled settled).symm⟩
    simp only [Store.flushStep, if_neg busy]

theorem Flushing.flushUpTo (flushing : Flushing s A t) (below : n ≤ CACHE_SIZE) :
    ∃ t', (List.range n).foldl Store.flushStep (true, t) = (true, t') ∧ Flushing s A t' ∧
      ∀ idx < n, t'.view.Settled idx := by
  induction n with
  | zero => exact ⟨t, rfl, flushing, fun idx bad => absurd bad (by omega)⟩
  | succ n ih =>
    obtain ⟨t', reached, flushing', settled⟩ := ih (by omega)
    obtain ⟨t'', stepped, flushing'', same⟩ := flushing'.flushStep (show n < CACHE_SIZE by omega)
    refine ⟨t'', ?_, flushing'', ?_⟩
    · rw [range_succ, foldl_append, reached]
      exact stepped
    · intro idx inside a found
      rw [same] at found
      by_contra dirty
      obtain ⟨b, old, -, -, still⟩ := writeOut_lines_cases found
      obtain ⟨dirtyOld, other⟩ := still (by simpa using dirty)
      exact absurd (settled idx (by omega) b old) (by simp [dirtyOld])

theorem Shows.flushAll (shows : s.Shows A) :
    ∃ s', s.flushAll = (true, s') ∧ Flushing s A s' ∧ s'.view.pending = ∅ := by
  have start : Flushing s A s :=
    ⟨shows, subset_rfl, fun d seen => .inl seen, fun k => .inl rfl⟩
  obtain ⟨s', flushed, flushing, settled⟩ := start.flushUpTo le_rfl
  refine ⟨s', flushed, flushing, Set.eq_empty_iff_forall_notMem.mpr ?_⟩
  rintro k ⟨idx, a, found, -, dirty⟩
  exact absurd (settled idx (lt_of_line found) a found) (by simp [dirty])

theorem Shows.invalidate (shows : s.Shows A) (settled : (dev, block) ∉ s.view.pending) :
    (s.invalidate dev block).2.Shows A ∧ (s.invalidate dev block).2.disk = s.disk ∧
      (s.invalidate dev block).2.view.pending ⊆ s.view.pending := by
  unfold Store.invalidate
  split
  · next idx found =>
    have here := view_of_findEntry found
    have inside := lt_of_line here
    let e : CacheEntry := { s.cache.entries idx with valid := false, dirty := false }
    have dropped : (s.setEntry idx e).view = s.view.put idx none := view_setEntry inside _
    have clean : s.view.Settled idx := by
      intro a other
      cases here.symm.trans other
      by_contra dirty
      exact settled ⟨idx, _, here, rfl, by simpa using dirty⟩
    exact ⟨shows.setEntry inside (shows.coherent.drop clean) (by simp [line])
      (fun _ => rfl), rfl, (dropped ▸ pending_drop : (s.setEntry idx e).view.pending ⊆ _)⟩
  · exact ⟨shows, rfl, subset_rfl⟩

end Store

end Zenus.Fs
