import Zenus.Lib.Run
import Zenus.Lib.Slots
import Zenus.Lib.Word

/-! # The table of virtual memory areas

`VmaTable` is a 64-entry array with a live count.  `insert` appends, `remove`
invalidates one entry and compacts the array in place, and `removeOverlapping`
removes by rescanning after each deletion.  The live entries form the list
`VmaTable.live`; every operation is first described on that list, and the table
invariant is then a statement about lists.
-/

namespace Zenus.Mem

open Lib.Slots Lib.Word Function Lib.Run List Nat

def MAX_VMAS : Nat := 64

/-- Highest user-space address a mapping may reach. -/
def MAX_MAPPING_SIZE : Nat := 0x7F0000000000

structure VmaRegion where
  start : Nat
  endAddr : Nat
  prot : Nat
  flags : Nat
  fileOffset : Nat
  inode : Nat
  valid : Bool
  deriving DecidableEq, Repr

namespace VmaRegion

def new : VmaRegion := ⟨0, 0, 0, 0, 0, 0, false⟩

def contains (r : VmaRegion) (addr : Nat) : Bool :=
  r.valid && decide (addr ≥ r.start) && decide (addr < r.endAddr)

/-- The half-open overlap test of `insert` and `removeOverlapping`. -/
def overlaps (r : VmaRegion) (start endAddr : Nat) : Bool :=
  r.valid && decide (r.start < endAddr) && decide (r.endAddr > start)

end VmaRegion

structure VmaTable where
  regions : Nat → VmaRegion
  count : Nat
  mmapBase : Nat

namespace VmaTable

def new : VmaTable := ⟨fun _ => .new, 0, 0x200000000000⟩

def live (t : VmaTable) : List VmaRegion := slots t.regions t.count

/-- `insert`: the slot used, or `none` with the table as it was. -/
def insert (t : VmaTable) (start endAddr prot flags : Nat) : Option Nat × VmaTable :=
  if endAddr ≤ start then (none, t)
  else if endAddr > MAX_MAPPING_SIZE then (none, t)
  else if t.live.any (·.overlaps start endAddr) then (none, t)
  else if t.count ≥ MAX_VMAS then (none, t)
  else
    (some t.count,
      { t with
        regions := update t.regions t.count ⟨start, endAddr, prot, flags, 0, 0, true⟩
        count := t.count + 1 })

/-- First index below `n` whose entry satisfies the test. -/
def firstIdx (t : VmaTable) (test : VmaRegion → Bool) : Option Nat :=
  (List.range t.count).find? (fun i => test (t.regions i))

def find (t : VmaTable) (addr : Nat) : Option Nat := t.firstIdx (·.contains addr)

/-- The compaction loop of `remove` after `read` iterations: the array and the
    write index.  Entries are only moved when the two indices differ. -/
def compact (regions : Nat → VmaRegion) : Nat → (Nat → VmaRegion) × Nat
  | 0 => (regions, 0)
  | read + 1 =>
    let (rs, write) := compact regions read
    if (rs read).valid then
      ((if write ≠ read then update rs write (rs read) else rs), write + 1)
    else (rs, write)

def remove (t : VmaTable) (idx : Nat) : Bool × VmaTable :=
  if idx ≥ t.count then (false, t)
  else
    let (rs, write) :=
      compact (update t.regions idx { t.regions idx with valid := false }) t.count
    (true, { t with regions := rs, count := write })

/-- The rescan loop of `removeOverlapping`; `passes` counts down the guard. -/
def removeOverlappingLoop (start endAddr : Nat) : Nat → Nat → VmaTable → Nat × VmaTable
  | 0, removed, t => (removed, t)
  | passes + 1, removed, t =>
    match t.firstIdx (·.overlaps start endAddr) with
    | some idx => removeOverlappingLoop start endAddr passes (removed + 1) (t.remove idx).2
    | none => (removed, t)

/-- The guard is checked before each pass with `guard > MAX_VMAS`, so the loop
    makes at most `MAX_VMAS + 1` of them. -/
def removeOverlapping (t : VmaTable) (start endAddr : Nat) : Nat × VmaTable :=
  removeOverlappingLoop start endAddr (MAX_VMAS + 1) 0 t

/-- The loop of `find_free`: a candidate that meets a region moves to its end. -/
def findFreeLoop (t : VmaTable) (size : Nat) : Nat → Nat → Option Nat
  | 0, _ => none
  | rounds + 1, candidate =>
    match checkedAdd candidate size with
    | none => none
    | some endAddr =>
      if endAddr ≤ MAX_MAPPING_SIZE then
        match t.live.find? fun r =>
            r.valid && decide (candidate < r.endAddr) && decide (satAdd candidate size > r.start) with
        | none => some candidate
        | some r =>
          let aligned := r.endAddr &&& bnot 0xFFF
          if aligned ≤ candidate then none else findFreeLoop t size rounds aligned
      else none

def findFree (t : VmaTable) (size hint : Nat) : Option Nat :=
  if size = 0 ∨ size > MAX_MAPPING_SIZE then none
  else findFreeLoop t size (MAX_VMAS + 1) (hint &&& bnot 0xFFF)

/-- The loop of `sys_mprotect` over the regions. -/
def setProt (t : VmaTable) (start endAddr prot : Nat) : VmaTable :=
  { t with
    regions := fun i =>
      if i < t.count ∧ (t.regions i).overlaps start endAddr then { t.regions i with prot := prot }
      else t.regions i }

/-! ## The array loops as list operations -/

theorem compact_spec (regions : Nat → VmaRegion) (n : Nat) :
    slots (compact regions n).1 (compact regions n).2 = (slots regions n).filter (·.valid) ∧
      (∀ j, n ≤ j → (compact regions n).1 j = regions j) ∧ (compact regions n).2 ≤ n := by
  induction n with
  | zero => simp [compact]
  | succ read ih =>
    obtain ⟨kept, rest, bound⟩ := ih
    have current : (compact regions read).1 read = regions read := rest read le_rfl
    simp only [compact, slots_succ regions read, filter_append]
    by_cases valid : (regions read).valid
    · simp only [current, valid, if_true]
      split
      · refine ⟨?_, ?_, by omega⟩
        · rw [slots_update_self, kept]
          simp [valid]
        · intro j above
          rw [update_of_ne (by omega)]
          exact rest j (by omega)
      · rename_i same
        have same : (compact regions read).2 = read := not_not.mp same
        refine ⟨?_, fun j above => rest j (by omega), by omega⟩
        rw [slots_succ, kept, same, current]
        simp [valid]
    · simp only [current, valid, Bool.false_eq_true, if_false]
      refine ⟨?_, fun j above => rest j (by omega), by omega⟩
      rw [kept]
      simp [valid]

theorem live_length (t : VmaTable) : t.live.length = t.count := slots_length _ _

variable {t t' : VmaTable} {r r' : VmaRegion} {test : VmaRegion → Bool}
  {start endAddr i size idx prot flags addr j rounds candidate found hint low : Nat}

theorem live_remove (inside : idx < t.count)
    (valid : ∀ r ∈ t.live, r.valid = true) : (t.remove idx).2.live = t.live.eraseIdx idx := by
  have spec := (compact_spec
    (update t.regions idx { t.regions idx with valid := false }) t.count).1
  simp only [remove, not_le.mpr inside, if_false, live]
  rw [spec, slots_update]
  have split := slots_split t.regions inside
  have front : ∀ r ∈ slots t.regions idx, r.valid = true := by
    intro r member
    exact valid r (by rw [live, split]; exact mem_append_left _ member)
  have back : ∀ r ∈ slots (fun j => t.regions (idx + 1 + j)) (t.count - (idx + 1)), r.valid = true := by
    intro r member
    exact valid r (by rw [live, split]; simp [member])
  rw [split, set_append_right _ _ (by simp), eraseIdx_append_of_length_le (by simp)]
  simp only [slots_length, Nat.sub_self, set_cons_zero, eraseIdx_cons_zero,
    filter_append, filter_eq_self.mpr front]
  rw [filter_cons_of_neg (by simp), filter_eq_self.mpr back]

theorem count_remove (inside : idx < t.count)
    (valid : ∀ r ∈ t.live, r.valid = true) : (t.remove idx).2.count + 1 = t.count := by
  have lengths := congrArg List.length (live_remove inside valid)
  rw [live_length, length_eraseIdx_of_lt (by rw [live_length]; exact inside), live_length] at lengths
  omega

theorem live_insert_some (h : t.insert start endAddr prot flags = (some i, t')) :
    start < endAddr ∧ endAddr ≤ MAX_MAPPING_SIZE ∧
      t.live.any (·.overlaps start endAddr) = false ∧ t.count < MAX_VMAS ∧
      t'.count = t.count + 1 ∧
      t'.live = t.live ++ [⟨start, endAddr, prot, flags, 0, 0, true⟩] := by
  unfold insert at h
  split_ifs at h with empty high overlap full
  all_goals cases h
  refine ⟨by omega, by omega, by simpa using overlap, by omega, rfl, ?_⟩
  exact slots_update_self _ _ _

theorem insert_none (h : t.insert start endAddr prot flags = (none, t')) : t' = t := by
  unfold insert at h
  split_ifs at h <;> simp_all

/-! ## The table invariant -/

def Apart (a b : VmaRegion) : Prop := a.endAddr ≤ b.start ∨ b.endAddr ≤ a.start

/-- What every reachable table satisfies. -/
structure Inv (t : VmaTable) : Prop where
  bounded : t.count ≤ MAX_VMAS
  valid : ∀ r ∈ t.live, r.valid = true
  nonempty : ∀ r ∈ t.live, r.start < r.endAddr
  ceiling : ∀ r ∈ t.live, r.endAddr ≤ MAX_MAPPING_SIZE
  apart : t.live.Pairwise Apart

theorem inv_new : new.Inv := by
  constructor <;> simp [new, live]

theorem inv_insert (inv : t.Inv) (start endAddr prot flags : Nat) :
    (t.insert start endAddr prot flags).2.Inv := by
  cases taken : t.insert start endAddr prot flags with
  | mk slot t' =>
    cases slot with
    | none =>
      rw [insert_none taken]
      exact inv
    | some i =>
      obtain ⟨forward, low, clear, room, counted, appended⟩ := live_insert_some taken
      have member : ∀ {p : VmaRegion → Prop}, (∀ r ∈ t.live, p r) →
          p ⟨start, endAddr, prot, flags, 0, 0, true⟩ → ∀ r ∈ t'.live, p r := by
        intro p old fresh r mem
        rw [appended, mem_append, mem_singleton] at mem
        rcases mem with mem | rfl
        · exact old r mem
        · exact fresh
      refine ⟨by simp only; omega, member inv.valid rfl, member inv.nonempty forward,
        member inv.ceiling low, ?_⟩
      rw [appended, pairwise_append]
      refine ⟨inv.apart, pairwise_singleton _ _, ?_⟩
      intro old mem fresh isFresh
      cases mem_singleton.mp isFresh
      have miss := any_eq_false.mp clear old mem
      simp only [VmaRegion.overlaps, inv.valid old mem, Bool.true_and, Bool.and_eq_true,
        decide_eq_true_eq, not_and, not_lt] at miss
      simp only [Apart]
      omega

theorem inv_remove (inv : t.Inv) (idx : Nat) : (t.remove idx).2.Inv := by
  by_cases inside : idx < t.count
  · have erased := live_remove inside inv.valid
    have counted := count_remove inside inv.valid
    have kept : ∀ r ∈ (t.remove idx).2.live, r ∈ t.live := by
      intro r mem
      rw [erased] at mem
      exact mem_of_mem_eraseIdx mem
    have bounded := inv.bounded
    refine ⟨by omega, fun r mem => inv.valid r (kept r mem),
      fun r mem => inv.nonempty r (kept r mem), fun r mem => inv.ceiling r (kept r mem), ?_⟩
    rw [erased]
    exact inv.apart.sublist (eraseIdx_sublist _ _)
  · simpa [remove, not_lt.mp inside] using inv

theorem inv_removeOverlappingLoop (start endAddr passes : Nat) :
    ∀ (removed : Nat) {t : VmaTable}, t.Inv →
      (removeOverlappingLoop start endAddr passes removed t).2.Inv := by
  induction passes with
  | zero =>
    intro removed t inv
    exact inv
  | succ passes ih =>
    intro removed t inv
    simp only [removeOverlappingLoop]
    split
    · exact ih _ (inv_remove inv _)
    · exact inv

/-! ## Lookup -/

theorem firstIdx_some (h : t.firstIdx test = some i) : i < t.count ∧ test (t.regions i) = true := by
  have found := find?_some h
  have mem := mem_of_find?_eq_some h
  exact ⟨mem_range.mp mem, found⟩

theorem firstIdx_none : t.firstIdx test = none ↔ ∀ r ∈ t.live, test r = false := by
  simp [firstIdx, live, slots]

theorem contains_iff : r.contains addr = true ↔ r.valid = true ∧ r.start ≤ addr ∧ addr < r.endAddr := by
  simp [VmaRegion.contains, and_assoc]

theorem regions_mem_live (h : i < t.count) : t.regions i ∈ t.live :=
  mem_slots.mpr ⟨i, h, rfl⟩

theorem Inv.apart_at (inv : t.Inv) (hi : i < t.count)
    (hj : j < t.count) (different : i ≠ j) : Apart (t.regions i) (t.regions j) := by
  have pairs := pairwise_iff_getElem.mp inv.apart
  rcases lt_or_gt_of_ne different with less | greater
  · have here := pairs i j (by rwa [live_length]) (by rwa [live_length]) less
    simpa only [live, slots_getElem] using here
  · have here := pairs j i (by rwa [live_length]) (by rwa [live_length]) greater
    simpa only [live, slots_getElem, Apart, or_comm] using here

theorem Inv.find_iff (inv : t.Inv) (addr i : Nat) :
    t.find addr = some i ↔ i < t.count ∧ (t.regions i).contains addr = true := by
  constructor
  · exact firstIdx_some
  · rintro ⟨inside, here⟩
    cases found : t.find addr with
    | none =>
      have miss := firstIdx_none.mp found _ (regions_mem_live inside)
      rw [here] at miss
      cases miss
    | some j =>
      obtain ⟨insideJ, hereJ⟩ := firstIdx_some found
      by_cases same : j = i
      · rw [same]
      · have separate := inv.apart_at insideJ inside same
        rw [contains_iff] at here hereJ
        simp only [Apart] at separate
        omega

/-! ## Removing a range -/

/-- The area meets the half-open range as a set of addresses. -/
def Meets (start endAddr : Nat) (r : VmaRegion) : Prop :=
  ∃ addr, r.start ≤ addr ∧ addr < r.endAddr ∧ start ≤ addr ∧ addr < endAddr

theorem firstIdx_overlaps_split (h : t.firstIdx test = some i) :
    t.live.filter (fun r => !test r) = (t.live.eraseIdx i).filter (fun r => !test r) ∧
      t.live.countP test = (t.live.eraseIdx i).countP test + 1 := by
  obtain ⟨inside, hit⟩ := firstIdx_some h
  rw [live, slots_split t.regions inside, eraseIdx_append_of_length_le (by simp)]
  simp [hit]
  omega

/-- The rescan loop keeps exactly the areas that fail the overlap test, in
    order, and counts the others, as long as it has one pass more than there are
    entries. -/
theorem removeOverlappingLoop_spec (start endAddr passes : Nat) :
    ∀ (removed : Nat) {t : VmaTable}, (∀ r ∈ t.live, r.valid = true) → t.count < passes →
      (removeOverlappingLoop start endAddr passes removed t).2.live =
          t.live.filter (fun r => !r.overlaps start endAddr) ∧
        (removeOverlappingLoop start endAddr passes removed t).1 =
          removed + t.live.countP (·.overlaps start endAddr) := by
  induction passes with
  | zero =>
    intro removed t _ room
    omega
  | succ passes ih =>
    intro removed t valid room
    simp only [removeOverlappingLoop]
    split
    · rename_i idx found
      obtain ⟨inside, _⟩ := firstIdx_some found
      have erased := live_remove inside valid
      have counted := count_remove inside valid
      have stillValid : ∀ r ∈ (t.remove idx).2.live, r.valid = true := by
        intro r mem
        rw [erased] at mem
        exact valid r (mem_of_mem_eraseIdx mem)
      obtain ⟨kept, number⟩ := ih (removed + 1) stillValid (by omega)
      obtain ⟨sameKept, oneMore⟩ := firstIdx_overlaps_split found
      rw [kept, number, erased, sameKept, oneMore]
      exact ⟨rfl, by omega⟩
    · rename_i found
      have miss := firstIdx_none.mp found
      refine ⟨(filter_eq_self.mpr ?_).symm, ?_⟩
      · intro r mem
        simp [miss r mem]
      · have none : t.live.countP (·.overlaps start endAddr) = 0 :=
          countP_eq_zero.mpr (fun r mem => by simp [miss r mem])
        omega

theorem Inv.removeOverlapping_spec (inv : t.Inv) (start endAddr : Nat) :
    (t.removeOverlapping start endAddr).2.live = t.live.filter (fun r => !r.overlaps start endAddr) ∧
      (t.removeOverlapping start endAddr).1 = t.live.countP (·.overlaps start endAddr) := by
  have bounded := inv.bounded
  have spec := removeOverlappingLoop_spec start endAddr (MAX_VMAS + 1) 0 inv.valid (by omega)
  simpa only [removeOverlapping, zero_add] using spec

theorem overlaps_iff (valid : r.valid = true) :
    r.overlaps start endAddr = true ↔ r.start < endAddr ∧ start < r.endAddr := by
  simp [VmaRegion.overlaps, valid]

theorem overlaps_iff_meets (valid : r.valid = true)
    (nonempty : r.start < r.endAddr) (range : start < endAddr) :
    r.overlaps start endAddr = true ↔ Meets start endAddr r := by
  rw [overlaps_iff valid]
  constructor
  · rintro ⟨low, high⟩
    exact ⟨max r.start start, by omega, by omega, by omega, by omega⟩
  · rintro ⟨addr, _, _, _, _⟩
    omega

theorem not_meets_of_empty (range : endAddr ≤ start) (r : VmaRegion) : ¬ Meets start endAddr r := by
  rintro ⟨addr, _, _, _, _⟩
  omega

/-- `removeOverlapping` keeps the areas that miss the range, in order and with
    their contents, and returns how many it removed. -/
def RemovesExactly (t : VmaTable) (start endAddr : Nat) : Prop :=
  ∃ hit : VmaRegion → Bool, (∀ r ∈ t.live, hit r = true ↔ Meets start endAddr r) ∧
    (t.removeOverlapping start endAddr).2.live = t.live.filter (fun r => !hit r) ∧
    (t.removeOverlapping start endAddr).1 = t.live.countP hit

theorem Inv.removesExactly_iff (inv : t.Inv) (start endAddr : Nat) :
    t.RemovesExactly start endAddr ↔
      start < endAddr ∨ ∀ r ∈ t.live, ¬ (r.start < endAddr ∧ start < r.endAddr) := by
  obtain ⟨kept, number⟩ := inv.removeOverlapping_spec start endAddr
  constructor
  · rintro ⟨hit, exact_, _, counted⟩
    by_cases range : start < endAddr
    · exact .inl range
    · refine .inr ?_
      have noHit : t.live.countP hit = 0 := by
        refine countP_eq_zero.mpr (fun r mem isHit => ?_)
        exact not_meets_of_empty (by omega) r ((exact_ r mem).mp isHit)
      rw [number, noHit, countP_eq_zero] at counted
      intro r mem overlap
      exact counted r mem ((overlaps_iff (inv.valid r mem)).mpr overlap)
  · intro range
    refine ⟨(·.overlaps start endAddr), ?_, kept, number⟩
    intro r mem
    by_cases forward : start < endAddr
    · exact overlaps_iff_meets (inv.valid r mem) (inv.nonempty r mem) forward
    · have clear := (range.resolve_left forward) r mem
      rw [overlaps_iff (inv.valid r mem)]
      exact iff_of_false clear (not_meets_of_empty (by omega) r)

/-! ## Areas of an address, protection and free ranges -/

theorem Inv.unique (inv : t.Inv) (mem : r ∈ t.live)
    (mem' : r' ∈ t.live) (here : r.contains addr = true) (here' : r'.contains addr = true) : r = r' := by
  by_contra other
  have : Std.Symm Apart := ⟨fun _ _ apart => apart.symm⟩
  have apart : Apart r r' := inv.apart.forall mem mem' other
  obtain ⟨-, low, high⟩ := contains_iff.mp here
  obtain ⟨-, low', high'⟩ := contains_iff.mp here'
  unfold Apart at apart
  omega

theorem Inv.remove_found (inv : t.Inv) (mem : r ∈ t.live) :
    ∃ idx, t.find r.start = some idx ∧
      ∀ r', r' ∈ (t.remove idx).2.live ↔ r' ∈ t.live ∧ r'.start ≠ r.start := by
  obtain ⟨idx, inside, rfl⟩ := mem_slots.mp mem
  have here : (t.regions idx).contains (t.regions idx).start = true :=
    contains_iff.mpr ⟨inv.valid _ mem, le_rfl, inv.nonempty _ mem⟩
  refine ⟨idx, (inv.find_iff _ idx).mpr ⟨inside, here⟩, fun r' => ?_⟩
  have split := slots_split t.regions inside
  have length : (slots t.regions idx).length = idx := by simp [slots]
  have apart := inv.apart
  rw [live_remove inside inv.valid, live, split, eraseIdx_append_of_length_le length.le, length, Nat.sub_self,
    eraseIdx_cons_zero]
  rw [live, split, pairwise_append, pairwise_cons] at apart
  obtain ⟨-, ⟨right, -⟩, left⟩ := apart
  -- another area lies before or behind it, and neither is empty
  have other : ∀ r' ∈ t.live, Apart r' (t.regions idx) ∨ Apart (t.regions idx) r' →
      r'.start ≠ (t.regions idx).start := by
    intro r' mem' separate same
    have first := inv.nonempty _ mem
    have second := inv.nonempty _ mem'
    unfold Apart at separate
    omega
  simp only [mem_append, mem_cons]
  constructor
  · rintro (before | behind)
    · refine ⟨.inl before, other r' ?_ (.inl (left r' before _ (.head _)))⟩
      rw [live, split]
      exact mem_append_left _ before
    · refine ⟨.inr (.inr behind), other r' ?_ (.inr (right r' behind))⟩
      rw [live, split]
      exact mem_append_right _ (.tail _ behind)
  · rintro ⟨before | rfl | behind, different⟩
    · exact .inl before
    · exact absurd rfl different
    · exact .inr behind

theorem live_setProt (t : VmaTable) (start endAddr prot : Nat) :
    (t.setProt start endAddr prot).live =
      t.live.map fun r => if r.overlaps start endAddr then { r with prot := prot } else r := by
  simp only [live, slots, setProt, map_map]
  refine map_congr_left fun i inside => ?_
  simp [mem_range.mp inside]

theorem inv_setProt (inv : t.Inv) (start endAddr prot : Nat) : (t.setProt start endAddr prot).Inv := by
  have kept : ∀ r : VmaRegion, (if r.overlaps start endAddr then { r with prot := prot } else r).start = r.start ∧
      (if r.overlaps start endAddr then { r with prot := prot } else r).endAddr = r.endAddr ∧
      (if r.overlaps start endAddr then { r with prot := prot } else r).valid = r.valid := by
    intro r
    split_ifs <;> exact ⟨rfl, rfl, rfl⟩
  refine ⟨inv.bounded, ?_, ?_, ?_, ?_⟩
  · simpa [live_setProt, kept] using inv.valid
  · simpa [live_setProt, kept] using inv.nonempty
  · simpa [live_setProt, kept] using inv.ceiling
  · rw [live_setProt, pairwise_map]
    exact inv.apart.imp fun apart => by simpa [Apart, kept] using apart

theorem findFreeLoop_spec (aligned : 4096 ∣ candidate)
    (search : t.findFreeLoop size rounds candidate = some found) :
    4096 ∣ found ∧ found + size ≤ MAX_MAPPING_SIZE := by
  induction rounds generalizing candidate with
  | zero => cases search
  | succ rounds ih =>
    unfold findFreeLoop at search
    split at search
    · cases search
    · next sum =>
      split at search
      · next room =>
        split at search
        · cases search
          exact ⟨aligned, eq_of_checkedAdd sum ▸ room⟩
        · dsimp only at search
          split at search
          · cases search
          · exact ih (and_bnot_page ..) search
      · cases search

theorem findFree_spec (search : t.findFree size hint = some found) :
    4096 ∣ found ∧ found + size ≤ MAX_MAPPING_SIZE := by
  unfold findFree at search
  split at search
  · cases search
  · exact findFreeLoop_spec (and_bnot_page ..) search

/-! ## First fit -/

/-- Where `size` bytes can go from an address on: on a page, below the ceiling, and clear of
    every valid area. -/
def places (t : VmaTable) (size low : Nat) : Set Nat :=
  {a | 4096 ∣ a ∧ low ≤ a ∧ a + size ≤ MAX_MAPPING_SIZE ∧ ∀ r ∈ t.live, r.overlaps a (a + size) = false}

theorem places_skip (mem : r ∈ t.live) (hit : r.overlaps low (low + size) = true) :
    t.places size low = t.places size r.endAddr := by
  have valid : r.valid = true := by
    rw [VmaRegion.overlaps, Bool.and_assoc, Bool.and_eq_true] at hit
    exact hit.1
  rw [overlaps_iff valid] at hit
  ext a
  refine ⟨fun ⟨page, above, room, clear⟩ => ⟨page, ?_, room, clear⟩, fun ⟨page, above, rest⟩ =>
    ⟨page, by omega, rest⟩⟩
  by_contra before
  have miss := clear r mem
  rw [(overlaps_iff valid).mpr ⟨by omega, by omega⟩] at miss
  cases miss

/-- A round either decides or passes the end of one more area for good, so one round more
    than there are areas ahead suffices. -/
theorem findFreeLoop_first (ends : ∀ r ∈ t.live, r.valid = true → 4096 ∣ r.endAddr ∧ r.endAddr < WORD) :
    ∀ {rounds low : Nat}, 4096 ∣ low →
      (t.live.filter fun r => r.valid && decide (low < r.endAddr)).length < rounds →
      (∃ a, t.findFreeLoop size rounds low = some a ∧ IsLeast (t.places size low) a) ∨
        (t.findFreeLoop size rounds low = none ∧ t.places size low = ∅) := by
  intro rounds
  induction rounds with
  | zero => exact fun _ no => absurd no (not_lt_zero _)
  | succ rounds ih =>
    intro low page enough
    have top : MAX_MAPPING_SIZE < WORD := by decide
    have full : MAX_MAPPING_SIZE < low + size → t.places size low = ∅ := by
      intro beyond
      refine Set.eq_empty_of_forall_notMem fun a ⟨_, above, room, _⟩ => ?_
      omega
    rw [findFreeLoop]
    by_cases room : low + size ≤ MAX_MAPPING_SIZE
    · have sum : checkedAdd low size = some (low + size) := if_pos (by omega)
      have sat : satAdd low size = low + size := min_eq_left (by omega)
      have test : ∀ r : VmaRegion, (r.valid && decide (low < r.endAddr) &&
          decide (satAdd low size > r.start)) = r.overlaps low (low + size) := fun r => by
        rw [sat, VmaRegion.overlaps, Bool.and_right_comm]
      simp only [sum, test, if_pos room]
      split
      · next clear =>
        rw [find?_eq_none] at clear
        refine .inl ⟨low, rfl, ⟨page, le_rfl, room, fun r mem => ?_⟩, fun a place => place.2.1⟩
        exact Bool.not_eq_true _ ▸ clear r mem
      · next r found =>
        have hit := find?_some found
        have mem := mem_of_find?_eq_some found
        have parts : (r.valid = true ∧ r.start < low + size) ∧ low < r.endAddr := by
          simpa [VmaRegion.overlaps] using hit
        obtain ⟨⟨valid, -⟩, ahead⟩ := parts
        obtain ⟨page', small⟩ := ends r mem valid
        have exact_ : r.endAddr &&& bnot 0xFFF = r.endAddr := by
          rw [show 0xFFF = 2 ^ 12 - 1 by decide, and_bnot_mask small (by decide)]
          exact Nat.div_mul_cancel page'
        rw [exact_, if_neg (by omega), places_skip mem hit]
        refine ih page' (lt_of_lt_of_le ?_ (le_of_lt_succ enough))
        have fewer : (t.live.filter fun q => q.valid && decide (r.endAddr < q.endAddr)) =
            (t.live.filter fun q => q.valid && decide (low < q.endAddr)).filter
              fun q => decide (r.endAddr < q.endAddr) := by
          rw [filter_filter]
          refine filter_congr fun q _ => ?_
          by_cases far : r.endAddr < q.endAddr
          · simp [far, ahead.trans far]
          · simp [far]
        rw [fewer, length_filter_lt_length_iff_exists]
        exact ⟨r, mem_filter.mpr ⟨mem, by simp [valid, ahead]⟩, by simp⟩
    · refine .inr ⟨?_, full (by omega)⟩
      split
      · rfl
      · next sum => rw [eq_of_checkedAdd sum, if_neg room]

/-- `find_free` returns the first place at or above the page of the hint, and none exactly
    when the size is out of range or there is no place: its rounds suffice. -/
theorem findFree_first (bounded : t.count ≤ MAX_VMAS)
    (ends : ∀ r ∈ t.live, r.valid = true → 4096 ∣ r.endAddr ∧ r.endAddr < WORD) (size hint : Nat) :
    (∃ a, t.findFree size hint = some a ∧ size ≠ 0 ∧ size ≤ MAX_MAPPING_SIZE ∧
      IsLeast (t.places size (hint &&& bnot 0xFFF)) a) ∨
    (t.findFree size hint = none ∧
      (size = 0 ∨ size > MAX_MAPPING_SIZE ∨ t.places size (hint &&& bnot 0xFFF) = ∅)) := by
  unfold findFree
  split
  · next no => exact .inr ⟨rfl, no.imp_right .inl⟩
  · next ok =>
    have count : (t.live.filter fun r => r.valid && decide (hint &&& bnot 0xFFF < r.endAddr)).length <
        MAX_VMAS + 1 := Nat.lt_succ_of_le ((length_filter_le ..).trans (live_length t ▸ bounded))
    rcases findFreeLoop_first ends (and_bnot_page hint) count with ⟨a, found, least⟩ | ⟨none, empty⟩
    · exact .inl ⟨a, found, by omega, by omega, least⟩
    · exact .inr ⟨none, .inr (.inr empty)⟩

/-- Two areas, the higher one listed first. -/
def twoAreas : VmaTable := ((new.insert 0x3000 0x5000 3 0).2.insert 0x1000 0x3000 3 0).2

theorem findFree_first_twoAreas : twoAreas.findFree 0x1000 0x1800 = some 0x5000 ∧
    IsLeast (twoAreas.places 0x1000 (0x1800 &&& bnot 0xFFF)) 0x5000 := by
  have found : twoAreas.findFree 0x1000 0x1800 = some 0x5000 := by decide
  rcases findFree_first (t := twoAreas) (by decide) (by decide) 0x1000 0x1800
    with ⟨a, same, -, -, least⟩ | ⟨refused, -⟩
  · cases found.symm.trans same
    exact ⟨found, least⟩
  · cases found.symm.trans refused

/-! ## Runs of the table -/

/-- The mutating entry points, with the arguments a caller may pass. -/
inductive Op where
  | insert (start endAddr prot flags : Nat)
  | remove (idx : Nat)
  | removeOverlapping (start endAddr : Nat)
  deriving DecidableEq, Repr

def step (t : VmaTable) : Op → Option VmaTable
  | .insert start endAddr prot flags => some (t.insert start endAddr prot flags).2
  | .remove idx => some (t.remove idx).2
  | .removeOverlapping start endAddr => some (t.removeOverlapping start endAddr).2

theorem step_inv (t : VmaTable) (op : Op) (t' : VmaTable) (inv : t.Inv)
    (stepped : step t op = some t') : t'.Inv := by
  cases op with
  | insert start endAddr prot flags =>
    cases stepped
    exact inv_insert inv start endAddr prot flags
  | remove idx =>
    cases stepped
    exact inv_remove inv idx
  | removeOverlapping start endAddr =>
    cases stepped
    exact inv_removeOverlappingLoop start endAddr _ 0 inv

/-- Every table reachable from `new` keeps its entries valid, non-empty, below
    the ceiling and pairwise disjoint; `find` is the unique area of an address; a
    refused `insert` changes nothing; and a range removal removes exactly the
    areas that meet the range, if and only if the range is non-empty or no area
    strictly surrounds it. -/
theorem reachable_exact (ops : List Op) {t : VmaTable} (run : exec step ops new = some t) :
    t.Inv ∧
      (∀ addr i, t.find addr = some i ↔ i < t.count ∧ (t.regions i).contains addr = true) ∧
      (∀ start endAddr prot flags,
        (t.insert start endAddr prot flags).1 = none →
          (t.insert start endAddr prot flags).2 = t) ∧
      (∀ start endAddr, t.RemovesExactly start endAddr ↔
        start < endAddr ∨ ∀ r ∈ t.live, ¬ (r.start < endAddr ∧ start < r.endAddr)) := by
  have inv : t.Inv := invariant Inv step_inv inv_new run
  refine ⟨inv, inv.find_iff, ?_, inv.removesExactly_iff⟩
  intro start endAddr prot flags refused
  exact insert_none (Prod.ext refused rfl)

/-- An area, a second one beyond it, and the removal of a range in between. -/
theorem reachable_exact_two_areas :
    ∃ t, exec step
        [.insert 0x1000 0x3000 3 0, .insert 0x5000 0x6000 1 0, .removeOverlapping 0x2000 0x4000]
        new = some t ∧ t.Inv ∧ t.find 0x5800 = some 0 := by
  refine ⟨_, rfl, ?_, ?_⟩
  · exact (reachable_exact [.insert 0x1000 0x3000 3 0, .insert 0x5000 0x6000 1 0,
      .removeOverlapping 0x2000 0x4000] rfl).1
  · decide

/-- An empty range inside an area: it meets no area, yet the area is removed. -/
theorem removeOverlapping_empty_range :
    ∃ t, exec step [.insert 0x1000 0x3000 3 0] new = some t ∧
      ¬ t.RemovesExactly 0x2000 0x2000 := by
  refine ⟨_, rfl, ?_⟩
  rw [(inv_insert inv_new 0x1000 0x3000 3 0).removesExactly_iff]
  decide

end VmaTable

end Zenus.Mem
