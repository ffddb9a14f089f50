import Zenus.Mem.PageDestroy

/-! # One address space

A space in good order owns the tree of its user half: no frame occurs twice in it,
and none is available to the allocator.  Mapping a page adds frames to the tree,
unmapping one takes its frame out, and neither touches anything else that is in use.
-/

namespace Zenus.Mem.Machine

open Lib.Radix List

structure Space (m : Machine) (r : Nat) : Prop where
  wf : m.fa.Wf
  nodup : (userFrames m.mem r).Nodup
  used : ∀ f ∈ userFrames m.mem r, f ∉ m.fa.avail
  plain : ∀ i < 256, All mapped Plain m.mem 3 (m.mem r i)

variable {m m' : Machine} {r p t l virt flags e i c j k x cr3 : Nat} {ok : Bool} {mem mem' : Nat → Nat → Nat}

theorem root_mem_userFrames (mem : Nat → Nat → Nat) (r : Nat) : r ∈ userFrames mem r := by
  simp [userFrames]

theorem hang_sub_userFrames (user : i < 256) :
    ∀ f ∈ hang mapped mem 3 (mem r i), f ∈ userFrames mem r :=
  fun f member => mem_append_left _ (hang_sub_frames user f member)

theorem Space.tree (space : Space m r) : (frames mapped m.mem 3 r 256).Nodup ∧
    ∀ f ∈ frames mapped m.mem 3 r 256, f ∉ m.fa.avail ∧ f ≠ r := by
  obtain ⟨nodup, _, apart⟩ := nodup_append.mp space.nodup
  refine ⟨nodup, fun f member => ⟨space.used f (mem_append_left _ member), ?_⟩⟩
  exact apart f member r (mem_singleton_self r)

theorem Space.owned (space : Space m r) (user : i < 256) : Owned m 3 r i := by
  obtain ⟨nodup, used⟩ := space.tree
  refine ⟨space.used r (root_mem_userFrames _ _), space.plain i user, ?_, ?_⟩
  · rw [(frames_perm user).nodup_iff] at nodup
    exact nodup.of_append_left
  · exact fun f member => used f (hang_sub_frames user f member)

theorem userFrames_congr (lower : ∀ i < 256, mem' r i = mem r i)
    (same : ∀ f ∈ frames mapped mem 3 r 256, mem' f = mem f) : userFrames mem' r = userFrames mem r := by
  rw [userFrames, userFrames, frames_congr lower same]

theorem Space.keep (space : Space m r) (wf : m'.fa.Wf) (sub : m'.fa.avail ⊆ m.fa.avail)
    (same : ∀ f ∈ userFrames m.mem r, m'.mem f = m.mem f) :
    Space m' r ∧ userFrames m'.mem r = userFrames m.mem r := by
  have table := same r (root_mem_userFrames _ _)
  have tree : userFrames m'.mem r = userFrames m.mem r := userFrames_congr (fun i _ => by rw [table])
    fun f member => same f (mem_append_left _ member)
  refine ⟨⟨wf, tree ▸ space.nodup, fun f member no => space.used f (tree ▸ member) (sub no), ?_⟩, tree⟩
  intro i user
  rw [table]
  exact (space.plain i user).congr fun f member => same f (hang_sub_userFrames user f member)

/-! ## Mapping -/

/-- The effect of a mapping on a space. -/
structure MappedInto (m m' : Machine) (r virt : Nat) (new page : List Nat) : Prop where
  grown : Grown m m' new
  space : Space m' r
  tree : (userFrames m'.mem r).Perm ((new ++ page) ++ userFrames m.mem r)
  keep : ∀ f, f ∉ m.fa.avail → f ∉ userFrames m.mem r → m'.mem f = m.mem f
  others : ∀ i, i ≠ tableIndex 3 virt → m'.mem r i = m.mem r i

theorem Space.mapUser (space : Space m r) (frame : IsFrame p) (taken : p ∉ m.fa.avail)
    (apart : p ∉ userFrames m.mem r) (good : PageFlags flags) (user : tableIndex 3 virt < 256)
    (walk : MapWalk virt p flags 3 r m ok m') :
    ∃ new, MappedInto m m' r virt new (if ok then [p] else []) := by
  obtain ⟨nodup, used⟩ := space.tree
  obtain ⟨new, grown, ext⟩ := mapWalk_extended walk frame good space.wf taken (space.owned user)
  obtain ⟨tree, plain⟩ := ext.inTable user nodup used space.plain
  refine ⟨new, ?_⟩
  generalize pages : (if ok then [p] else []) = page at ext tree ⊢
  have only : ∀ f ∈ page, f = p := by
    intro f member
    rw [← pages] at member
    split_ifs at member
    · exact mem_singleton.mp member
    · exact absurd member not_mem_nil
  have perm : (userFrames m'.mem r).Perm ((new ++ page) ++ userFrames m.mem r) := by
    rw [userFrames, userFrames, ← append_assoc]
    exact tree.append_right _
  refine ⟨grown, ⟨grown.wf, ?_, ?_, plain⟩, perm, ?_, ext.others⟩
  · rw [perm.nodup_iff]
    refine nodup_append.mpr ⟨nodup_append.mpr ⟨grown.nodup, ?_, ?_⟩, space.nodup, ?_⟩
    · rw [← pages]
      split_ifs <;> simp
    · rintro f early g late rfl
      exact taken (only f late ▸ (grown.fresh f early).1)
    · rintro f early g late rfl
      rcases mem_append.mp early with early | page
      · exact space.used f late (grown.fresh f early).1
      · exact apart (only f page ▸ late)
  · intro f member
    rcases mem_append.mp (perm.mem_iff.mp member) with early | old
    · rcases mem_append.mp early with early | page
      · exact (grown.fresh f early).2
      · exact only f page ▸ grown.keeps_used taken
    · exact grown.keeps_used (space.used f old)
  · intro f inUse outside
    refine ext.keep f inUse (fun eq => outside (eq ▸ root_mem_userFrames _ _)) fun no => outside ?_
    exact hang_sub_userFrames user f no

/-! ## Unmapping -/

/-- The tree below a word has lost the frame `x`. -/
structure Removed (m m' : Machine) (l t i x : Nat) : Prop where
  keep : ∀ f, f ≠ t → f ∉ hang mapped m.mem l (m.mem t i) → m'.mem f = m.mem f
  others : ∀ j, j ≠ i → m'.mem t j = m.mem t j
  /-- Only words of last-level tables are cleared. -/
  above : 0 < l → m'.mem t = m.mem t
  plain : All mapped Plain m'.mem l (m'.mem t i)
  tree : (hang mapped m.mem l (m.mem t i)).Perm (x :: hang mapped m'.mem l (m'.mem t i))

theorem Removed.inTable (cut : Removed m m' l c j x) (inside : j < k)
    (nodup : (frames mapped m.mem l c k).Nodup) (apart : ∀ f ∈ frames mapped m.mem l c k, f ≠ c)
    (plain : ∀ i < k, All mapped Plain m.mem l (m.mem c i)) :
    (frames mapped m.mem l c k).Perm (x :: frames mapped m'.mem l c k) ∧
      ∀ i < k, All mapped Plain m'.mem l (m'.mem c i) := by
  have same : ∀ i < k, i ≠ j → ∀ f ∈ hang mapped m.mem l (m.mem c i), m'.mem f = m.mem f := by
    intro i before ne f member
    exact cut.keep f (apart f (hang_sub_frames before f member))
      (frames_apart nodup before inside ne f member)
  have trees : ∀ i < k, i ≠ j → hang mapped m'.mem l (m'.mem c i) = hang mapped m.mem l (m.mem c i) := by
    intro i before ne
    rw [cut.others i ne]
    exact hang_congr (same i before ne)
  constructor
  · refine frames_graft [x] inside (fun i _ ne => (cut.others i ne).symm) ?_ cut.tree
    intro i before ne f member
    rw [trees i before ne] at member
    exact (same i before ne f member).symm
  · intro i before
    by_cases here : i = j
    · rw [here]
      exact cut.plain
    · rw [cut.others i here]
      exact (plain i before).congr (same i before here)

theorem leafSlot_removed (own : Owned m l t (tableIndex l virt))
    (found : leafSlot m.mem virt l t = some (c, i, e)) :
    Removed m (m.setWord c i 0) l t (tableIndex l virt) (frameAddr e) := by
  induction l generalizing t with
  | zero =>
    unfold leafSlot at found
    dsimp only at found
    split_ifs at found with absent
    obtain ⟨rfl, rfl, rfl⟩ := found
    refine ⟨fun f other _ => setWord_frame other, fun j other => setWord_index other,
      fun no => absurd no (lt_irrefl 0), ?_, ?_⟩
    · rw [setWord_self]
      exact all_plain_zero _ _
    · rw [setWord_self, hang_mapped_zero, hang_zero, show mapped.page _ = some _ from tableOf_some absent]
      exact List.Perm.refl _
  | succ l ih =>
    unfold leafSlot at found
    dsimp only at found
    split_ifs at found with absent
    have used : m.mem t (tableIndex (l + 1) virt) ≠ 0 := fun no => absent (by rw [no]; rfl)
    have below := own.below used
    have cut := ih (below.owned (tableIndex_lt l virt)) found
    obtain ⟨tree, plain⟩ := cut.inTable (tableIndex_lt l virt) below.nodup
      (fun f member => (below.used f member).2.1) below.plain
    have old : hang mapped m.mem (l + 1) (m.mem t (tableIndex (l + 1) virt)) =
        frames mapped m.mem l (frameAddr (m.mem t (tableIndex (l + 1) virt))) 512 ++
          [frameAddr (m.mem t (tableIndex (l + 1) virt))] :=
      hang_some (tableOf_some absent)
    let table := frameAddr (m.mem t (tableIndex (l + 1) virt))
    have inner : ∀ f ∈ hang mapped m.mem l (m.mem table (tableIndex l virt)),
        f ∈ frames mapped m.mem l table 512 := hang_sub_frames (tableIndex_lt l virt)
    have table : (m.setWord c i 0).mem t = m.mem t :=
      cut.keep t (Ne.symm below.table.2) fun no => (below.used t (inner t no)).2.2 rfl
    refine ⟨?_, fun j _ => by rw [table], fun _ => table, ?_, ?_⟩
    · intro f other outside
      rw [old] at outside
      exact cut.keep f (fun eq => outside (by simp [eq]))
        fun no => outside (mem_append_left _ (inner f no))
    · rw [table]
      refine ⟨own.plain.1, fun c' points k before => ?_⟩
      cases (tableOf_some absent).symm.trans points
      exact plain k before
    · rw [table, old, hang_some (tableOf_some absent)]
      exact tree.append_right _

/-- The effect of unmapping a page. -/
structure UnmappedFrom (m m' : Machine) (r x : Nat) : Prop where
  space : Space m' r
  tree : (userFrames m.mem r).Perm (x :: userFrames m'.mem r)
  keep : ∀ f, f ∉ userFrames m.mem r → m'.mem f = m.mem f
  root : m'.mem r = m.mem r
  frame : IsFrame x
  fa : m'.fa = m.fa.freeFrame x

/-- `unmap_page_raw` of a user address finds nothing, or takes the page out of the space
    and gives its frame back. -/
theorem Space.unmapUser (space : Space m (pageBase cr3)) (user : virt < 2 ^ 47)
    (run : m.unmapPageRaw cr3 virt = some (ok, m')) : m' = m ∨ ∃ x, UnmappedFrom m m' (pageBase cr3) x := by
  have index := tableIndex_user user
  unfold unmapPageRaw at run
  split at run
  · cases run
    exact .inl rfl
  · next c i e found =>
    rw [freePhys_frame (isFrame_frameAddr e)] at run
    cases run
    have cut := leafSlot_removed (space.owned index) found
    obtain ⟨nodup, used⟩ := space.tree
    obtain ⟨tree, plain⟩ := cut.inTable index nodup (fun f member => (used f member).2) space.plain
    have perm : (userFrames m.mem (pageBase cr3)).Perm
        (frameAddr e :: userFrames (m.setWord c i 0).mem (pageBase cr3)) := tree.append_right _
    have parts := nodup_cons.mp (perm.nodup_iff.mp space.nodup)
    obtain ⟨wf, only⟩ := space.wf.freeFrame (frameAddr_lt e)
      (space.used _ (perm.mem_iff.mpr (.head _)))
    refine .inr ⟨frameAddr e, ⟨wf, parts.2, ?_, plain⟩, perm, ?_, cut.above (by decide),
      isFrame_frameAddr e, rfl⟩
    · intro f member avail
      rcases only avail with rfl | avail
      · exact parts.1 member
      · exact space.used f (perm.mem_iff.mpr (.tail _ member)) avail
    · intro f outside
      refine cut.keep f (fun eq => outside (eq ▸ root_mem_userFrames _ _)) fun no => outside ?_
      exact hang_sub_userFrames index f no

end Zenus.Mem.Machine
