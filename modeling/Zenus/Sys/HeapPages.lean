import Zenus.Mem.SpaceWords
import Zenus.Mem.UserBytes

/-! # The pages of the program's heap

`map_heap_pages` and `unmap_heap_pages`, page by page, and what they do to the pages of
a range that belongs to the heap: the set of mapped pages grows or shrinks by the one
that is handled, and the others keep their frames and contents.
-/

namespace Zenus.Mem.Machine

open Lib.Word Function Nat List

/-- One round of `unmap_heap_pages`.  A physical address from the tables has 52 bits, so
    that `PhysAddr::new` does not panic. -/
def unmapHeapPage (cr3 page : Nat) (m : Machine) : Machine :=
  match m.virtToPhysRaw cr3 page with
  | none => m
  | some phys => ({ m with fa := m.fa.freeFrame (pageBase phys) }.unmapPageRawKeepFrame cr3 page).2

/-- `unmap_heap_pages`; `none` is the overflow check of `end + 0xFFF`. -/
def unmapHeapPages (m : Machine) (cr3 start stop : Nat) : Option Machine :=
  if WORD ≤ stop + 0xFFF then none
  else
    some ((List.range ((pageBase (stop + 0xFFF) - pageBase start) / 4096)).foldl
      (fun m i => m.unmapHeapPage cr3 (pageBase start + 4096 * i)) m)

/-- One round of `map_heap_pages`. -/
def mapHeapPage (mapper : Mapper) (cr3 page : Nat) (m : Machine) : Option (Bool × Machine) :=
  if USER_SPACE_LIMIT ≤ page then some (false, m)
  else if (m.virtToPhysRaw cr3 page).isSome then some (true, m)
  else
    match m.allocFrame with
    | none => none
    | some (none, m) => some (false, m)
    | some (some frame, m) => mapUserPageRaw mapper (m.zeroFrame frame) cr3 page frame true false

/-- `map_heap_pages`; `none` is a panic. -/
def mapHeapPages (mapper : Mapper) (m : Machine) (cr3 start stop : Nat) : Option (Bool × Machine) :=
  if WORD ≤ stop + 0xFFF then none
  else
    Lib.Loop.upTo (fun i m => m.mapHeapPage mapper cr3 (pageBase start + 4096 * i))
      ((pageBase (stop + 0xFFF) - pageBase start) / 4096) m

/-- The pages from number `lo` up to `hi`: those in the set are mapped for the program to
    write and have the given contents, the others are not mapped. -/
structure HeapMap (m : Machine) (lo hi : Nat) (inUse : Nat → Prop) (words : Nat → Nat → Nat) : Prop where
  space : Space m (pageBase m.cr3)
  held : ∀ n, lo ≤ n → n < hi → inUse n →
    ∃ p, m.pageAt m.cr3 (4096 * n) = some (p, true) ∧ m.mem p = words n
  free : ∀ n, lo ≤ n → n < hi → ¬ inUse n → m.pageAt m.cr3 (4096 * n) = none

variable {m m' m₁ m'' : Machine} {mapper : Mapper} {lo hi n p r virt : Nat} {inUse inUse' : Nat → Prop}
variable {start stop flags x : Nat}
  {words words' : Nat → Nat → Nat} {ok b : Bool}

theorem HeapMap.congr (heap : HeapMap m lo hi inUse words)
    (same : ∀ n, lo ≤ n → n < hi → (inUse' n ↔ inUse n))
    (contents : ∀ n, lo ≤ n → n < hi → inUse n → words' n = words n) : HeapMap m lo hi inUse' words' := by
  refine ⟨heap.space, fun n low high used => ?_, fun n low high no => ?_⟩
  · have old := (same n low high).mp used
    rw [contents n low high old]
    exact heap.held n low high old
  · exact heap.free n low high fun old => no ((same n low high).mpr old)

theorem cr3_of_statics (same : m'.statics = m.statics) : m'.cr3 = m.cr3 := congrArg Prod.fst same

/-! ## Mapping -/

theorem Space.zeroed (space : Space m r) (got : m.Allocated p m₁) :
    Space (m₁.zeroFrame p) r ∧ p ∉ (m₁.zeroFrame p).fa.avail ∧ p ∉ userFrames (m₁.zeroFrame p).mem r ∧
      ∀ f ∈ userFrames m.mem r, (m₁.zeroFrame p).mem f = m.mem f := by
  have other : ∀ f ∈ userFrames m.mem r, f ≠ p := by
    rintro f member rfl
    exact space.used f member got.mem
  have same : ∀ f ∈ userFrames m.mem r, (m₁.zeroFrame p).mem f = m.mem f := by
    intro f member
    rw [zeroFrame, setFrame_frame (other f member), got.store]
  obtain ⟨kept, tree⟩ : Space (m₁.zeroFrame p) r ∧ _ :=
    space.keep got.wf (got.sub.trans Set.sdiff_subset) same
  refine ⟨kept, fun no => (got.sub no).2 rfl, ?_, same⟩
  rw [tree]
  exact fun member => other p member rfl

/-- The allocator has lost nothing that it had not, and a frame if anything has changed. -/
def Took (m m' : Machine) : Prop :=
  m'.fa.avail ⊆ m.fa.avail ∧ (m' = m ∨ ∃ p ∈ m.fa.avail, p ∉ m'.fa.avail)

theorem Took.trans (first : Took m m') (second : Took m' m'') : Took m m'' := by
  refine ⟨second.1.trans first.1, ?_⟩
  rcases second.2 with rfl | ⟨p, was, gone⟩
  · exact first.2
  · exact .inr ⟨p, first.1 was, gone⟩

variable (heap : HeapMap m lo hi inUse words)

include heap

theorem HeapMap.mapped (room : 4096 * hi ≤ 2 ^ 47)
    (high : n < hi) (zero : words n = fun _ => 0) (got : m.Allocated p m₁) (good : PageFlags flags)
    (rights : usable flags = true)
    (walk : MapWalk (4096 * n) p flags 3 (pageBase m.cr3) (m₁.zeroFrame p) ok m') :
    p ∉ m'.fa.avail ∧ Took m m' ∧
      (ok = true → m'.cr3 = m.cr3 ∧ HeapMap m' lo hi (fun k => inUse k ∨ k = n) words) := by
  obtain ⟨space, taken, apart, same⟩ := heap.space.zeroed got
  have user : ∀ k, k < hi → 4096 * k < 2 ^ 47 := fun k below => by omega
  obtain ⟨new, into⟩ := space.mapUser got.frame taken apart good (tableIndex_user (user n high)) walk
  have effect := space.toTree.mapped walk good (user n high)
  have cr3 : m'.cr3 = m.cr3 := cr3_of_statics (into.grown.statics.trans got.statics)
  have lost : p ∉ m'.fa.avail := into.grown.keeps_used taken
  refine ⟨lost, ⟨into.grown.sub.trans (got.sub.trans Set.sdiff_subset), .inr ⟨p, got.mem, lost⟩⟩, ?_⟩
  rintro rfl
  have views : ∀ k < hi, (m₁.zeroFrame p).pageAt m.cr3 (4096 * k) = m.pageAt m.cr3 (4096 * k) := fun k below =>
    heap.space.toTree.pageAt_congr space.toTree (user k below) (wordAt_congr fun d deep f here => by
      rw [same f (mem_userFrames_of_tableAt (by omega) (user k below) here)])
  have kept := fun k below (other : k ≠ n) =>
    effect.others space.toTree (user k below) (by omega)
  refine ⟨cr3, cr3.symm ▸ into.space, fun k low below used => ?_, fun k low below no => ?_⟩
  · rw [cr3]
    by_cases here : k = n
    · subst here
      refine ⟨p, effect.shown got.frame good rights (user k below), ?_⟩
      rw [into.keep p taken apart, zeroFrame, setFrame_self, zero]
    · obtain ⟨q, shows, contents⟩ := heap.held k low below (used.resolve_right here)
      have there := (views k below).trans shows
      refine ⟨q, (kept k below here).1 q there, ?_⟩
      rw [effect.keep q (space.page_used (user k below) there) (space.page_not_table (user k below) there),
        same q (mem_userFrames_of_tableAt le_rfl (user k below) (heap.space.toTree.page (user k below) shows).2.2),
        contents]
  · rw [cr3]
    exact (kept k below fun eq => no (.inr eq)).2
      ((views k below).trans (heap.free k low below fun used => no (.inl used)))

/-- One round of `map_heap_pages`: the page is in the heap afterwards, or the round fails,
    and without a trace only if no frame is left. -/
theorem HeapMap.mapHeapPage (room : 4096 * hi ≤ 2 ^ 47)
    (low : lo ≤ n) (high : n < hi) (zero : ¬ inUse n → words n = fun _ => 0)
    (run : m.mapHeapPage mapper m.cr3 (4096 * n) = some (ok, m')) :
    Took m m' ∧ (ok = true → m'.cr3 = m.cr3 ∧ HeapMap m' lo hi (fun k => inUse k ∨ k = n) words) ∧
      (ok = false → m' = m → m.allocFrame = some (none, m)) := by
  have user : 4096 * n < 2 ^ 47 := by omega
  have inside : ¬ USER_SPACE_LIMIT ≤ 4096 * n := not_le.mpr user
  unfold Machine.mapHeapPage at run
  rw [if_neg inside, heap.space.virtToPhysRaw_page user (by omega)] at run
  by_cases used : inUse n
  · obtain ⟨p, shows, -⟩ := heap.held n low high used
    rw [shows] at run
    cases run
    refine ⟨⟨subset_rfl, .inl rfl⟩, fun _ => ⟨rfl, heap.congr (fun k _ _ => ?_) fun _ _ _ _ => rfl⟩, by simp⟩
    exact ⟨fun h => h.elim id fun eq => eq ▸ used, .inl⟩
  · rw [heap.free n low high used] at run
    dsimp only [Option.map_none, Option.isSome_none] at run
    rw [if_neg Bool.false_ne_true] at run
    split at run
    · cases run
    · next m₁ empty =>
      cases run
      cases allocFrame_none empty
      exact ⟨⟨subset_rfl, .inl rfl⟩, by simp, fun _ _ => empty⟩
    · next p m₁ got =>
      have got := allocFrame_some heap.space.wf got
      have lost : p ∉ m'.fa.avail ∧ Took m m' ∧ (ok = true → m'.cr3 = m.cr3 ∧
          HeapMap m' lo hi (fun k => inUse k ∨ k = n) words) := by
        rcases mapUserPageRaw_cases run with ⟨rfl, rfl⟩ | ⟨flags, ⟨good, user, writes, -⟩, -, walk⟩
        · have gone : p ∉ (m₁.zeroFrame p).fa.avail := fun no => (got.sub no).2 rfl
          exact ⟨gone, ⟨got.sub.trans Set.sdiff_subset, .inr ⟨p, got.mem, gone⟩⟩, by simp⟩
        · rw [got.frame.pageBase] at walk
          exact heap.mapped room high (zero used) got good (by rw [usable, user, writes, Bool.and_self]) walk
      exact ⟨lost.2.1, lost.2.2, fun _ same => absurd got.mem (same ▸ lost.1)⟩

omit heap

theorem pageBase_eq (word : x < WORD) : pageBase x = 4096 * (x / 4096) := by
  rw [pageBase, show 0xFFF = 2 ^ 12 - 1 by decide, and_bnot_mask word (by decide), mul_comm]
  rfl

theorem rounds_eq (word : start < WORD) (fits : stop + 0xFFF < WORD) :
    (pageBase (stop + 0xFFF) - pageBase start) / 4096 = (stop + 0xFFF) / 4096 - start / 4096 := by
  rw [pageBase_eq word, pageBase_eq fits]
  omega

/-- `map_heap_pages` puts the pages that meet the range into the heap, or fails, and
    without a trace only if no frame is left. -/
theorem HeapMap.mapHeapPages (heap : HeapMap m lo hi inUse words)
    (room : 4096 * hi ≤ 2 ^ 47) (low : lo ≤ start / 4096) (high : stop ≤ 4096 * hi)
    (zero : ∀ n, ¬ inUse n → words n = fun _ => 0) (word : start < WORD)
    (run : m.mapHeapPages mapper m.cr3 start stop = some (ok, m')) :
    Took m m' ∧ (ok = true → m'.cr3 = m.cr3 ∧
        HeapMap m' lo hi (fun k => inUse k ∨ (start / 4096 ≤ k ∧ 4096 * k < stop)) words) ∧
      (ok = false → m' = m → m.allocFrame = some (none, m)) := by
  have fits : stop + 0xFFF < WORD := by
    have := WORD_eq
    omega
  unfold Machine.mapHeapPages at run
  rw [if_neg (not_le.mpr fits), rounds_eq word fits] at run
  have outcome := Lib.Loop.upTo_outcome
    (P := fun i x => Took m x ∧ x.cr3 = m.cr3 ∧
      HeapMap x lo hi (fun k => inUse k ∨ (start / 4096 ≤ k ∧ k < start / 4096 + i)) words)
    (Q := fun x => Took m x ∧ (x = m → m.allocFrame = some (none, m))) ?_
    ⟨⟨subset_rfl, .inl rfl⟩, rfl,
      heap.congr (fun k _ _ => ⟨fun h => h.resolve_right (by omega), .inl⟩) fun _ _ _ _ => rfl⟩ run
  · cases ok with
    | true =>
      obtain ⟨took, cr3, after⟩ := outcome.1 rfl
      exact ⟨took, fun _ => ⟨cr3, after.congr (fun k _ _ => or_congr Iff.rfl (by omega))
        fun _ _ _ _ => rfl⟩, by simp⟩
    | false =>
      obtain ⟨took, empty⟩ := outcome.2 rfl
      exact ⟨took, by simp, fun _ => empty⟩
  · rintro i inside x x' ok' ⟨took, cr3, here⟩ round
    rw [pageBase_eq word, ← mul_add, ← cr3] at round
    obtain ⟨took', mapped, failed⟩ := here.mapHeapPage room (by omega) (by omega)
      (fun no => zero _ fun used => no (.inl used)) round
    refine ⟨fun done => ?_, fun no => ⟨took.trans took', fun same => ?_⟩⟩
    · obtain ⟨cr3', after⟩ := mapped done
      refine ⟨took.trans took', cr3'.trans cr3, after.congr (fun k _ _ => ?_) fun _ _ _ _ => rfl⟩
      rw [or_assoc]
      exact or_congr Iff.rfl (by omega)
    · -- a round that fails without a trace leaves the machine of the beginning
      obtain rfl : x = m := by
        subst same
        rcases took.2 with same | ⟨p, was, gone⟩
        · exact same
        · exact absurd (took'.1 was) gone
      exact failed no same

theorem mapHeapPages_empty (empty : m.allocFrame = some (none, m))
    (run : m.mapHeapPages mapper m.cr3 start stop = some (ok, m')) : m' = m := by
  unfold Machine.mapHeapPages at run
  split_ifs at run
  have outcome := Lib.Loop.upTo_outcome (P := fun _ x => x = m) (Q := fun x => x = m) ?_ rfl run
  · cases ok with
    | true => exact outcome.1 rfl
    | false => exact outcome.2 rfl
  · rintro i - x x' ok' rfl round
    have same : x' = x := by
      unfold Machine.mapHeapPage at round
      rw [empty] at round
      split_ifs at round
      all_goals exact (Prod.mk.inj (Option.some.inj round)).2.symm
    exact ⟨fun _ => same, fun _ => same⟩

/-! ## Unmapping -/

include heap

theorem HeapMap.unmapHeapPage (room : 4096 * hi ≤ 2 ^ 47) (low : lo ≤ n) (high : n < hi) :
    (m.unmapHeapPage m.cr3 (4096 * n)).cr3 = m.cr3 ∧
      HeapMap (m.unmapHeapPage m.cr3 (4096 * n)) lo hi (fun k => inUse k ∧ k ≠ n) words := by
  have user : ∀ k, k < hi → 4096 * k < 2 ^ 47 := fun k below => by omega
  unfold Machine.unmapHeapPage
  rw [heap.space.virtToPhysRaw_page (user n high) (by omega)]
  cases shows : m.pageAt m.cr3 (4096 * n) with
  | none =>
    refine ⟨rfl, heap.congr (fun k below top => ?_) fun _ _ _ _ => rfl⟩
    refine ⟨And.left, fun used => ⟨used, ?_⟩⟩
    rintro rfl
    obtain ⟨p, no, -⟩ := heap.held k below top used
    rw [shows] at no
    cases no
  | some page =>
    obtain ⟨p, b⟩ := page
    have tree := heap.space.toTree
    obtain ⟨mapped, rfl, -⟩ := tree.page (user n high) shows
    obtain ⟨c, -, table, found⟩ := (tree.leafSlot (user n high)).resolve_left fun vacant => mapped vacant.1
    obtain ⟨-, upper, pages⟩ := tree.setPage (user n high) table (.inl rfl)
    generalize wordAt m.mem (pageBase m.cr3) (4096 * n) 3 = e at *
    have run : m.unmapPageRaw m.cr3 (4096 * n) =
        some (true, { m.setWord c (tableIndex 0 (4096 * n)) 0 with fa := m.fa.freeFrame (frameAddr e) }) := by
      rw [unmapPageRaw, found]
      simp only [freePhys_frame (isFrame_frameAddr e), Option.map_some]
    have space : Space { m.setWord c (tableIndex 0 (4096 * n)) 0 with fa := m.fa.freeFrame (frameAddr e) }
        (pageBase m.cr3) := by
      rcases heap.space.unmapUser (user n high) run with same | ⟨x, cut⟩
      · rw [same]
        exact heap.space
      · exact cut.space
    simp only [Option.map_some, (isFrame_frameAddr e).pageBase, unmapPageRawKeepFrame, found]
    have views : ∀ k < hi, k ≠ n → Machine.pageAt { m.setWord c (tableIndex 0 (4096 * n)) 0 with
        fa := m.fa.freeFrame (frameAddr e) } m.cr3 (4096 * k) = m.pageAt m.cr3 (4096 * k) := by
      intro k top other
      refine tree.pageAt_congr space.toTree (user k top) fun d deep => ?_
      rcases eq_or_lt_of_le deep with rfl | low
      · exact (pages _ (user k top)).trans (if_neg (by omega))
      · exact upper d low _ (user k top)
    refine ⟨rfl, space, fun k below top used => ?_, fun k below top no => ?_⟩
    · obtain ⟨q, there, contents⟩ := heap.held k below top used.1
      refine ⟨q, (views k top used.2).trans there, (setWord_frame ?_).trans contents⟩
      rintro rfl
      exact heap.space.page_not_table (user k top) there ⟨3, le_rfl, _, user n high, table⟩
    · by_cases here : k = n
      · subst here
        exact (space.toTree.pageAt (user k top)).trans (if_pos ((pages _ (user k top)).trans (if_pos rfl)))
      · exact (views k top here).trans (heap.free k below top fun used => no ⟨used, here⟩)

/-- `unmap_heap_pages` takes the pages that meet the range, the first of them whole, out of
    the heap. -/
theorem HeapMap.unmapHeapPages
    (room : 4096 * hi ≤ 2 ^ 47) (low : lo ≤ start / 4096) (high : stop ≤ 4096 * hi) (word : start < WORD) :
    ∃ m', m.unmapHeapPages m.cr3 start stop = some m' ∧
      HeapMap m' lo hi (fun k => inUse k ∧ ¬ (start / 4096 ≤ k ∧ 4096 * k < stop)) words := by
  have fits : stop + 0xFFF < WORD := by
    have := WORD_eq
    omega
  unfold Machine.unmapHeapPages
  rw [if_neg (not_le.mpr fits), rounds_eq word fits]
  refine ⟨_, rfl, ?_⟩
  have rounds : ∀ k, k ≤ (stop + 0xFFF) / 4096 - start / 4096 →
      let after := (range k).foldl (fun x i => x.unmapHeapPage m.cr3 (pageBase start + 4096 * i)) m
      after.cr3 = m.cr3 ∧
        HeapMap after lo hi (fun n => inUse n ∧ ¬ (start / 4096 ≤ n ∧ n < start / 4096 + k)) words := by
    intro k
    induction k with
    | zero =>
      intro _
      exact ⟨rfl, heap.congr (fun n _ _ => ⟨And.left, fun h => ⟨h, by omega⟩⟩) fun _ _ _ _ => rfl⟩
    | succ k ih =>
      intro inside
      obtain ⟨cr3, here⟩ := ih (by omega)
      rw [range_succ, foldl_append, foldl_cons, foldl_nil, pageBase_eq word,
        ← mul_add]
      rw [pageBase_eq word] at cr3 here
      obtain ⟨cr3', after⟩ := here.unmapHeapPage room (n := start / 4096 + k) (by omega) (by omega)
      rw [cr3] at cr3' after
      refine ⟨cr3', after.congr (fun n _ _ => ?_) fun _ _ _ _ => rfl⟩
      rw [and_assoc]
      exact and_congr Iff.rfl (by omega)
  exact (rounds _ le_rfl).2.congr (fun n _ _ => and_congr Iff.rfl (by omega)) fun _ _ _ _ => rfl

omit heap

/-! ## Stores of the program -/

theorem pageAt_page (m : Machine) (cr3 virt : Nat) :
    m.pageAt cr3 virt = m.pageAt cr3 (4096 * (virt / 4096)) := by
  have page : virt / 4096 = 4096 * (virt / 4096) / 4096 := by omega
  rw [pageAt, pageAt, pageBelow, pageBelow, walkPath_congr page]

theorem HeapMap.store (heap : HeapMap m lo hi inUse words) (room : 4096 * hi ≤ 2 ^ 47)
    (user : virt < 2 ^ 47) (page : m.pageAt m.cr3 virt = some (p, b)) (i w : Nat) :
    HeapMap (m.setWord p i w) lo hi inUse
      (update words (virt / 4096) (update (words (virt / 4096)) i w)) := by
  obtain ⟨space, views⟩ := heap.space.stored user page (update (m.mem p) i w)
  have user' : ∀ k, k < hi → 4096 * k < 2 ^ 47 := fun k below => by omega
  refine ⟨space, fun k low high used => ?_, fun k low high no => ?_⟩
  · obtain ⟨q, shows, contents⟩ := heap.held k low high used
    refine ⟨q, (views _ (user' k high)).trans shows, ?_⟩
    by_cases here : k = virt / 4096
    · rw [pageAt_page, ← here, shows] at page
      cases page
      rw [here, update_self, ← here, ← contents]
      exact setFrame_self ..
    · rw [update_of_ne here, ← contents]
      refine setFrame_frame ?_
      rintro rfl
      have := heap.space.page_once (user' k high) user shows page
      omega
  · exact (views _ (user' k high)).trans (heap.free k low high no)

end Zenus.Mem.Machine
