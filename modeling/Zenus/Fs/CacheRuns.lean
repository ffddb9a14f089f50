import Zenus.Fs.CacheCoherence
import Zenus.Lib.Run

/-! # Runs of the sector cache against a plain store

The calls of the cache run next to the map they are meant to implement, in which a
write overwrites a prefix of one sector.  The lookup only probes a block's window,
while the third phase of the eviction takes a slot anywhere in the table: a block
placed there is not found again.  As long as no call is pushed out of its window,
the cache and the map agree.
-/

namespace Zenus.Fs.CacheRuns

open Store Lib.Run

/-- The cache and its disk, next to the map a plain sector store would hold. -/
structure Sys where
  store : Store
  map : Key → Sector

inductive Op where
  | read (dev block : Nat) (buf : List UInt8)
  | write (dev block : Nat) (buf : List UInt8)
  | flush

def step (s : Sys) : Op → Option Sys
  | .read dev block buf => some { s with store := (s.store.readBlock dev block buf).2.2 }
  | .write dev block buf =>
    some ⟨(s.store.writeBlock dev block buf).2,
      Function.update s.map (dev, block) ((s.map (dev, block)).copyFrom buf)⟩
  | .flush => some { s with store := s.store.flushAll.2 }

/-- An empty cache before the disk, which is then the map. -/
def boot (disk : Disk) : Sys := ⟨cold disk, disk.data⟩

/-- The call's block is cached, its window has a slot that is empty or clean, or
    all 512 slots are dirty. -/
def Served (s : Sys) : Op → Prop
  | .read dev block _ => Roomy s.store.cache dev block
  | .write dev block _ => Roomy s.store.cache dev block
  | .flush => True

instance (s : Sys) : (op : Op) → Decidable (Served s op)
  | .read dev block _ => inferInstanceAs (Decidable (Roomy s.store.cache dev block))
  | .write dev block _ => inferInstanceAs (Decidable (Roomy s.store.cache dev block))
  | .flush => isTrue trivial

theorem step_shows (s : Sys) (op : Op) (s' : Sys) (shows : s.store.Shows s.map)
    (served : Served s op) (stepped : step s op = some s') : s'.store.Shows s'.map := by
  cases op with
  | read dev block buf =>
    obtain ⟨t, run, shown, -⟩ := shows.readBlock served buf
    cases stepped
    simpa only [run] using shown
  | write dev block buf =>
    obtain ⟨t, run, shown, -⟩ := shows.writeBlock served buf
    cases stepped
    simpa only [run] using shown
  | flush =>
    obtain ⟨t, run, flushing, -⟩ := shows.flushAll
    cases Option.some.inj stepped
    simpa only [run] using flushing.shown

def AtMostOnce (c : BlockCache) : Prop :=
  ∀ i < CACHE_SIZE, ∀ j < CACHE_SIZE, (c.entries i).valid = true → (c.entries j).valid = true →
    (c.entries i).devId = (c.entries j).devId → (c.entries i).block = (c.entries j).block → i = j

theorem atMostOnce {s : Store} {A : Key → Sector} (shows : s.Shows A) : AtMostOnce s.cache := by
  intro i inI j inJ validI validJ dev block
  have first : s.view.lines i = some _ := (view_lines inI).trans (if_pos validI)
  have second : s.view.lines j = some _ := (view_lines inJ).trans (if_pos validJ)
  exact shows.coherent.unique i j _ _ first second (Prod.ext dev block)

/-- In every run over devices that never refuse, in which no call is pushed out of
    its window, the cache holds no sector twice, such a read returns the bytes of
    the map, and a flush makes the disk the map. -/
theorem cache_refines_map (disk : Disk) (works : disk.Works) (ops : List Op) {s : Sys}
    (served : Along step Served ops (boot disk))
    (run : exec step ops (boot disk) = some s) :
    AtMostOnce s.store.cache ∧
      (∀ dev block buf, Served s (.read dev block buf) →
        (s.store.readBlock dev block buf).1 = true ∧
          (s.store.readBlock dev block buf).2.1 = (s.map (dev, block)).copyTo buf) ∧
      s.store.flushAll.1 = true ∧ s.store.flushAll.2.disk.data = s.map := by
  have shows : s.store.Shows s.map :=
    invariant_along (fun s => s.store.Shows s.map) step_shows (shows_cold works) served run
  refine ⟨atMostOnce shows, ?_, ?_⟩
  · intro dev block buf roomy
    obtain ⟨t, read, -⟩ := shows.readBlock roomy buf
    rw [read]
    exact ⟨rfl, rfl⟩
  · obtain ⟨t, flushed, flushing, settled⟩ := shows.flushAll
    rw [flushed]
    exact ⟨rfl, flushing.shown.disk_eq settled⟩

def blank : Disk := { data := fun _ => Sector.zero }

theorem blank_works : blank.Works := ⟨fun _ => rfl, fun _ => rfl⟩

/-- Blocks 0 to 3 dirty the window that block 512 also hashes to. -/
def crowded : List Op :=
  [.write 0 0 [1], .write 0 1 [1], .write 0 2 [1], .write 0 3 [1], .write 0 512 [7]]

/-- Block 512 is written to a slot outside its window, is not found there, and the
    read brings the old sector of the disk in next to it. -/
theorem crowded_window_loses_write :
    ∃ s, exec step crowded (boot blank) = some s ∧
      (s.map (0, 512)).copyTo [0] = [7] ∧ (s.store.readBlock 0 512 [0]).2.1 = [0] ∧
      ¬ AtMostOnce (s.store.readBlock 0 512 [0]).2.2.cache := by
  obtain ⟨s, reached, new, old, four, five, dev, block⟩ : ∃ s, exec step crowded (boot blank) = some s ∧
      (s.map (0, 512)).copyTo [0] = [7] ∧ (s.store.readBlock 0 512 [0]).2.1 = [0] ∧
      let c := (s.store.readBlock 0 512 [0]).2.2.cache
      (c.entries 4).valid = true ∧ (c.entries 5).valid = true ∧
        (c.entries 4).devId = (c.entries 5).devId ∧ (c.entries 4).block = (c.entries 5).block :=
    exists_of_any (by decide +kernel)
  refine ⟨s, reached, new, old, fun once => ?_⟩
  cases once 4 (by decide) 5 (by decide) four five dev block

/-- Five blocks of one window with a flush before the fifth. -/
def flushedWindow : List Op :=
  [.write 0 0 [1], .write 0 1 [1], .write 0 2 [1], .write 0 3 [1], .flush, .write 0 512 [7],
    .read 0 0 [0]]

theorem cache_refines_map_flushedWindow :
    ∃ s, exec step flushedWindow (boot blank) = some s ∧
      AtMostOnce s.store.cache ∧ (s.store.readBlock 0 512 [0]).2.1 = [7] ∧
      s.store.flushAll.2.disk.data = s.map := by
  obtain ⟨s, reached, new, roomy⟩ : ∃ s, exec step flushedWindow (boot blank) = some s ∧
      (s.map (0, 512)).copyTo [0] = [7] ∧ Roomy s.store.cache 0 512 := exists_of_any (by decide +kernel)
  obtain ⟨once, reads, _, flushed⟩ :=
    cache_refines_map blank blank_works flushedWindow (by decide +kernel) reached
  exact ⟨s, reached, once, (reads 0 512 [0] roomy).2.trans new, flushed⟩

end Zenus.Fs.CacheRuns
