import Zenus.Fs.CacheCoherence
import Zenus.Fs.Journal
import Mathlib.Data.Finset.Card

/-! # Sector cache calls and the disks a crash can leave

A caller that keeps few sectors of a window dirty at a time never pushes a dirty
sector out, so its reads and writes stay in the cache and only its flushes reach the
disk.  A crash
in the middle of a flush leaves a disk in which every sector is either the old one
or the new one; what holds of all those disks holds whenever the crash comes.
-/

namespace Zenus.Fs

open Sector Finset List Journal

/-- The cache shows `A` and the disk holds `B`, only sectors of `P` are dirty, and
    every disk that a crash up to now could have left meets `S`. -/
structure Guarded (s : Store) (A B : Key → Sector) (P : Finset Key)
    (S : (Key → Sector) → Prop) : Prop where
  shows : s.Shows A
  disk : s.disk.data = B
  pending : s.view.pending ⊆ P
  safe : ∀ d ∈ s.disk.states, S d

/-- Each sector of `d` is as in `B` or as in `A`. -/
def Mix (B A d : Key → Sector) : Prop := ∀ k, d k = B k ∨ d k = A k

/-- The windows of two sectors have a slot in common. -/
def Meets (k q : Key) : Prop := ∃ idx ∈ window k.1 k.2, idx ∈ window q.1 q.2

instance (k q : Key) : Decidable (Meets k q) :=
  inferInstanceAs (Decidable (∃ idx ∈ window k.1 k.2, idx ∈ window q.1 q.2))

/-- Fewer sectors of `P` than ways can be in the window of `k`. -/
def Sparse (P : Finset Key) (k : Key) : Prop := (P.filter (Meets k)).card < WAYS

instance (P : Finset Key) (k : Key) : Decidable (Sparse P k) :=
  inferInstanceAs (Decidable ((P.filter (Meets k)).card < WAYS))

theorem sparse_of_few {P : Finset Key} (few : P.card < WAYS) (k : Key) : Sparse P k :=
  Nat.lt_of_le_of_lt (card_filter_le P _) few

namespace Store

variable {s : Store} {A : Key → Sector} {idx dev block : Nat}

theorem line_of_busy (inside : idx < CACHE_SIZE) (busy : ¬ (s.cache.entries idx).Idle) :
    ∃ a, s.view.lines idx = some a ∧ a.dirty = true := by
  simp only [CacheEntry.Idle, not_or, Bool.not_eq_false] at busy
  refine ⟨_, (view_lines inside).trans (if_pos busy.1), busy.2⟩

theorem Shows.free_of_sparse (shows : s.Shows A) {P : Finset Key} (pending : s.view.pending ⊆ P)
    (sparse : Sparse P (dev, block)) : Free s.cache dev block := by
  by_contra full
  simp only [Free, not_exists, not_and] at full
  have dirty : ∀ idx ∈ window dev block, ∃ a, s.view.lines idx = some a ∧ a.dirty = true :=
    fun idx probed => line_of_busy (lt_of_mem_window probed) (full idx probed)
  choose line found busy using dirty
  let key : {idx // idx ∈ window dev block} → Key := fun slot => (line slot.1 slot.2).key
  -- distinct slots of the window hold distinct sectors, and all of them are pending
  have distinct : Function.Injective key := by
    intro i j same
    exact Subtype.ext (shows.coherent.unique i.1 j.1 _ _ (found i.1 i.2) (found j.1 j.2) same)
  have inside : ∀ slot, key slot ∈ P.filter (Meets (dev, block)) := by
    intro slot
    have dirty : key slot ∈ P :=
      pending ⟨slot.1, line slot.1 slot.2, found slot.1 slot.2, rfl, busy slot.1 slot.2⟩
    exact mem_filter.mpr
      ⟨dirty, slot.1, slot.2, shows.placed slot.1 _ (found slot.1 slot.2)⟩
  have many : (window dev block).attach.toFinset.card ≤ (P.filter (Meets (dev, block))).card :=
    card_le_card_of_injOn key (fun slot _ => inside slot) distinct.injOn
  rw [toFinset_card_of_nodup (nodup_attach.mpr (window_nodup dev block)),
    length_attach, window, length_map, length_range] at many
  exact absurd sparse (Nat.not_lt.mpr many)

end Store

namespace Guarded

open Store

variable {s : Store} {A B d : Key → Sector} {P Q : Finset Key} {S : (Key → Sector) → Prop} {dev block : Nat}

theorem cold (holds : S d) : Guarded (Store.cold { data := d }) d d ∅ S where
  shows := shows_cold ⟨fun _ => rfl, fun _ => rfl⟩
  disk := rfl
  pending := by
    rintro k ⟨idx, a, found, -⟩
    simp [view, Store.cold, BlockCache.new, CacheEntry.line] at found
  safe := by
    intro d' seen
    cases List.mem_singleton.mp seen
    exact holds

theorem read (guarded : Guarded s A B P S) (sparse : Sparse P (dev, block)) :
    ∃ s', bcRead s dev block = (some (A (dev, block)), s') ∧ Guarded s' A B P S := by
  have free := guarded.shows.free_of_sparse guarded.pending sparse
  obtain ⟨s', run, shown, pending, quiet⟩ :=
    guarded.shows.readBlock (.inr (.inl free)) zero.bytes
  have same := quiet free
  refine ⟨s', ?_, shown, same ▸ guarded.disk, pending.trans guarded.pending, same ▸ guarded.safe⟩
  have full : zero.bytes.length = SECTOR_SIZE := by simp [bytes]
  simp only [bcRead, run, copyTo_full _ full, ofBytes_bytes]

theorem write (guarded : Guarded s A B P S) (sparse : Sparse P (dev, block)) (data : Sector) :
    ∃ s', bcWrite s dev block data = (true, s') ∧
      Guarded s' (Function.update A (dev, block) data) B (insert (dev, block) P) S := by
  have free := guarded.shows.free_of_sparse guarded.pending sparse
  obtain ⟨s', run, shown, pending, quiet⟩ :=
    guarded.shows.writeBlock (.inr (.inl free)) data.bytes
  rw [copyFrom_bytes] at shown
  have same := quiet free
  refine ⟨s', run, shown, same ▸ guarded.disk, ?_, same ▸ guarded.safe⟩
  rw [coe_insert]
  exact pending.trans (Set.insert_subset_insert guarded.pending)

theorem flush (guarded : Guarded s A B P S) (survives : ∀ d, Mix B A d → S d) :
    ∃ s', s.flushAll = (true, s') ∧ Guarded s' A A ∅ S := by
  obtain ⟨s', run, flushing, settled⟩ := guarded.shows.flushAll
  refine ⟨s', run, flushing.shown, flushing.shown.disk_eq settled, ?_, ?_⟩
  · rw [settled, coe_empty]
  · intro d seen
    cases flushing.mixed d seen with
    | inl old => exact guarded.safe d old
    | inr mixed =>
      apply survives
      intro k
      cases mixed k with
      | inl kept => exact .inl (kept.trans (congrFun guarded.disk k))
      | inr written => exact .inr written.2

theorem invalidate (guarded : Guarded s A B ∅ S) (dev block : Nat) :
    Guarded (s.invalidate dev block).2 A B ∅ S := by
  have none : s.view.pending ⊆ ∅ := by simpa using guarded.pending
  obtain ⟨shown, same, pending⟩ := guarded.shows.invalidate (fun dirty => none dirty)
  exact ⟨shown, same ▸ guarded.disk, pending.trans guarded.pending, same ▸ guarded.safe⟩

theorem widen (guarded : Guarded s A B P S) (more : P ⊆ Q) : Guarded s A B Q S :=
  ⟨guarded.shows, guarded.disk, guarded.pending.trans (coe_subset.mpr more), guarded.safe⟩

end Guarded

end Zenus.Fs
