import Zenus.Mem.PageWords

/-! # The words of a space that owns its frames

A space owns the frames of its tree, so that each of them is on one way only: its tables
form a tree of words, and its pages are neither tables nor shown at two addresses.  A page
is the frame that the word of the last level points to, one step below the tables.
-/

namespace Zenus.Mem.Machine

open Lib.Radix List Nat

variable {m m' : Machine} {mem : Nat → Nat → Nat} {r t p d d' k virt v v' f cr3 flags w w' l n : Nat}
  {b ok b' : Bool}

/-! ## Ways -/

theorem tableAt_above (table : tableAt mem r v d = some f) (above : k ≤ d) : ∃ t, tableAt mem r v k = some t := by
  cases here : tableAt mem r v k with
  | some t => exact ⟨t, rfl⟩
  | none =>
    rcases eq_or_lt_of_le above with rfl | below
    · cases here.symm.trans table
    · obtain ⟨j, rfl⟩ := Nat.exists_eq_add_of_lt below
      rw [tableAt, wordAt_ended (wordAt_of_none here) (Nat.le_add_right k j), tableOf_zero] at table
      cases table

theorem mem_hang_of_tableAt (here : tableAt mem r v k = some t) (below : k < d) (deep : d ≤ 4)
    (there : tableAt mem r v d = some f) : f ∈ hang mapped mem (3 - k) (mem t (tableIndex (3 - k) v)) := by
  obtain ⟨j, rfl⟩ := Nat.exists_eq_add_of_lt below
  clear below
  rw [← wordAt_of_table here]
  induction j generalizing k t with
  | zero =>
    have points : tableOf (wordAt mem r v k) = some f := there
    rcases eq_or_lt_of_le (show k ≤ 3 by omega) with rfl | upper
    · rw [Nat.sub_self, hang_zero, show mapped.page _ = some f from points]
      exact mem_singleton_self f
    · rw [show 3 - k = 2 - k + 1 by omega, hang_some points]
      exact mem_append_right _ (mem_singleton_self f)
  | succ j ih =>
    obtain ⟨c, next⟩ := tableAt_above there (show k + 1 ≤ k + (j + 1) + 1 by omega)
    have lower := ih next (by omega) (by rw [← there]; congr 1; omega)
    rw [show 3 - k = 3 - (k + 1) + 1 by omega, hang_some next]
    rw [wordAt_of_table next] at lower
    exact mem_append_left _ (hang_sub_frames (tableIndex_lt ..) f lower)

theorem Space.table (space : Space m r) (user : v < 2 ^ 47) (deep : d ≤ 3) (here : tableAt m.mem r v d = some t) :
    ∃ n, Table m (3 - d) t n ∧ ∀ v < 2 ^ 47, tableIndex (3 - d) v < n := by
  induction d generalizing t with
  | zero =>
    cases here
    exact ⟨256, space.toTable, fun _ => tableIndex_user⟩
  | succ d ih =>
    obtain ⟨c, above⟩ := tableAt_above here (le_succ d)
    obtain ⟨n, table, inside⟩ := ih (by omega) above
    rw [tableAt, wordAt_of_table above] at here
    rw [show 3 - d = 3 - (d + 1) + 1 by omega] at here table inside
    have used : m.mem c (tableIndex (3 - (d + 1) + 1) v) ≠ 0 := by
      intro zero
      rw [zero, tableOf_zero] at here
      cases here
    have owned := table.owned (inside v user)
    rw [tableOf_some (owned.plain.here.table used).1] at here
    cases here
    exact ⟨512, (owned.below used).toTable, fun _ _ => tableIndex_lt ..⟩

theorem Space.once (space : Space m r) (deep : d ≤ 4) (deep' : d' ≤ 4) (user : v < 2 ^ 47) (user' : v' < 2 ^ 47)
    (here : tableAt m.mem r v d = some f) (there : tableAt m.mem r v' d' = some f) : d = d' ∧ Same d v v' := by
  have common : ∀ k, k ≤ d → k ≤ d' → Same k v v' := by
    intro k
    induction k with
    | zero => exact fun _ _ j low => absurd low (not_lt_zero j)
    | succ k ih =>
      intro low low'
      have same := ih (by omega) (by omega)
      obtain ⟨t, table⟩ := tableAt_above here (show k ≤ d by omega)
      have table' : tableAt m.mem r v' k = some t := same.tableAt ▸ table
      obtain ⟨n, owns, inside⟩ := space.table user (by omega) table
      refine Same.succ_iff.mpr ⟨same, ?_⟩
      by_contra parts
      exact frames_apart owns.nodup (inside v user) (inside v' user') parts f
        (mem_hang_of_tableAt table low deep here) (mem_hang_of_tableAt table' low' deep' there)
  -- a frame is not below itself
  have proper : ∀ {a b v}, a < b → b ≤ 4 → v < 2 ^ 47 → tableAt m.mem r v a = some f →
      tableAt m.mem r v b ≠ some f := by
    intro a b v less deep user upper lower
    obtain ⟨n, owns, inside⟩ := space.table user (by omega) upper
    exact (owns.used f (hang_sub_frames (inside v user) f (mem_hang_of_tableAt upper less deep lower))).2 rfl
  rcases lt_trichotomy d d' with less | rfl | more
  · exact absurd there (proper less deep' user' ((common d le_rfl less.le).tableAt ▸ here))
  · exact ⟨rfl, common d le_rfl le_rfl⟩
  · exact absurd here (proper more deep user ((common d' more.le le_rfl).tableAt ▸ there))

theorem mem_userFrames_of_tableAt (deep : d ≤ 4) (user : v < 2 ^ 47) (here : tableAt mem r v d = some f) :
    f ∈ userFrames mem r := by
  rcases Nat.eq_zero_or_pos d with rfl | below
  · cases here
    exact root_mem_userFrames ..
  · exact hang_sub_userFrames (tableIndex_user user) f (mem_hang_of_tableAt rfl below deep here)

theorem Space.toTree (space : Space m r) : Tree m r := by
  refine ⟨space.wf, fun deep deep' => space.once (by omega) (by omega), fun deep user here =>
    space.used _ (mem_userFrames_of_tableAt (by omega) user here), fun {d v} deep user => ?_⟩
  cases here : tableAt m.mem r v d with
  | none => exact .inl (wordAt_of_none here)
  | some t =>
    obtain ⟨n, owns, inside⟩ := space.table user deep here
    rw [wordAt_of_table here]
    exact (owns.plain _ (inside v user)).here

/-! ## Pages -/

theorem Tree.pageAt (tree : Tree m (pageBase cr3)) (user : virt < 2 ^ 47) :
    m.pageAt cr3 virt = if wordAt m.mem (pageBase cr3) virt 3 = 0 then none
      else some (frameAddr (wordAt m.mem (pageBase cr3) virt 3),
        usable (wordAt m.mem (pageBase cr3) virt 3) &&
          (List.range 3).all fun d => usable (wordAt m.mem (pageBase cr3) virt d)) := by
  rw [Machine.pageAt, pageBelow]
  split_ifs with zero
  · rw [tree.walkPath_none user zero, Option.map_none]
  · rw [tree.walkPath user zero, Option.map_some]
    rfl

theorem Tree.pageAt_congr (tree : Tree m (pageBase cr3)) (tree' : Tree m' (pageBase cr3)) (user : virt < 2 ^ 47)
    (words : ∀ d ≤ 3, wordAt m'.mem (pageBase cr3) virt d = wordAt m.mem (pageBase cr3) virt d) :
    m'.pageAt cr3 virt = m.pageAt cr3 virt := by
  rw [tree.pageAt user, tree'.pageAt user, words 3 le_rfl]
  simp only [List.range, List.range.loop, all_cons, all_nil, words 0 (by decide),
    words 1 (by decide), words 2 (by decide)]

theorem Tree.page (tree : Tree m (pageBase cr3)) (user : virt < 2 ^ 47) (page : m.pageAt cr3 virt = some (p, b)) :
    wordAt m.mem (pageBase cr3) virt 3 ≠ 0 ∧ frameAddr (wordAt m.mem (pageBase cr3) virt 3) = p ∧
      tableAt m.mem (pageBase cr3) virt 4 = some p := by
  rw [tree.pageAt user] at page
  split_ifs at page with zero
  cases page
  exact ⟨zero, rfl, tableOf_some fun absent => zero ((tree.absent_iff le_rfl user).mp absent)⟩

section

variable (space : Space m (pageBase cr3))

include space

variable (user : virt < 2 ^ 47)

include user

theorem Space.virtToPhysRaw_eq :
    m.virtToPhysRaw cr3 virt = (m.pageAt cr3 virt).map fun (p, _) => p ||| (virt &&& 0xFFF) := by
  rw [space.toTree.virtToPhysRaw user, space.toTree.pageAt user]
  split_ifs <;> rfl

theorem Space.virtToPhysRaw_page
    (aligned : virt % 4096 = 0) : m.virtToPhysRaw cr3 virt = (m.pageAt cr3 virt).map Prod.fst := by
  have low : virt &&& 0xFFF = 0 := by
    rw [show 0xFFF = 2 ^ 12 - 1 by decide, and_two_pow_sub_one_eq_mod]
    exact aligned
  simp only [space.virtToPhysRaw_eq user, low, or_zero]

theorem Space.page_not_table (page : m.pageAt cr3 virt = some (p, b)) : ¬ IsTable m (pageBase cr3) p := by
  rintro ⟨d, deep, v, user', here⟩
  obtain ⟨rfl, -⟩ := space.once (by omega) le_rfl user' user here (space.toTree.page user page).2.2
  omega

theorem Space.page_used (page : m.pageAt cr3 virt = some (p, b)) : p ∉ m.fa.avail :=
  space.used p (mem_userFrames_of_tableAt le_rfl user (space.toTree.page user page).2.2)

theorem Space.page_once (user' : v < 2 ^ 47)
    (page : m.pageAt cr3 virt = some (p, b)) (page' : m.pageAt cr3 v = some (p, b')) :
    virt / 4096 = v / 4096 :=
  (same_page_iff user user').mp
    (space.once le_rfl le_rfl user user' (space.toTree.page user page).2.2 (space.toTree.page user' page').2.2).2

end

/-! ## Mapping a page -/

theorem usable_widens (widens : Widens flags w w') (old : usable w = true) : usable w' = true := by
  rcases widens with rfl | rfl | ⟨rfl, -⟩
  · exact old
  · exact usable_or_left _ old
  · cases old

theorem Mapped.shown (effect : Mapped m m' (pageBase cr3) virt p flags true) (frame : IsFrame p)
    (good : PageFlags flags) (rights : usable flags = true) (user : virt < 2 ^ 47) :
    m'.pageAt cr3 virt = some (p, true) := by
  have address := tableOf_page frame good
  rw [tableOf_some (present_page p good)] at address
  have mapped : p ||| flags ≠ 0 := fun zero => present_page p good (by rw [zero, zero_and])
  have word : wordAt m'.mem (pageBase cr3) virt 3 = p ||| flags := (effect.pages virt user).trans (if_pos ⟨rfl, rfl⟩)
  rw [effect.tree.pageAt user, word, if_neg mapped, Option.some.inj address, usable_or_right p rights, Bool.true_and]
  refine congrArg (fun b => some (p, b)) (all_eq_true.mpr fun d below => ?_)
  rw [← effect.includes rfl d (mem_range.mp below)]
  exact usable_or_right _ (usable_parentFlags rights)

theorem Mapped.others (effect : Mapped m m' (pageBase cr3) virt p flags ok) (tree : Tree m (pageBase cr3))
    (user : v < 2 ^ 47) (other : v / 4096 ≠ virt / 4096) :
    (∀ q, m.pageAt cr3 v = some (q, true) → m'.pageAt cr3 v = some (q, true)) ∧
      (m.pageAt cr3 v = none → m'.pageAt cr3 v = none) := by
  have word : wordAt m'.mem (pageBase cr3) v 3 = wordAt m.mem (pageBase cr3) v 3 :=
    (effect.pages v user).trans (if_neg fun both => other both.2)
  rw [tree.pageAt user, effect.tree.pageAt user, word]
  split_ifs with zero
  · exact ⟨fun _ no => no.elim, fun _ => rfl⟩
  · refine ⟨fun q page => ?_, fun no => no.elim⟩
    simp only [Option.some.injEq, Prod.mk.injEq, Bool.and_eq_true, all_eq_true, mem_range] at page ⊢
    exact ⟨page.1, page.2.1, fun d low => usable_widens (effect.words d low v user) (page.2.2 d low)⟩

/-! ## Stores to pages -/

theorem frames_stored (page : tableAt m.mem r virt 4 = some p) (words : Nat → Nat)
    (level : l + d = 3) (here : tableAt m.mem r virt d = some t) (table : Table m l t n)
    (inside : tableIndex l virt < n) :
    frames mapped (m.setFrame p words).mem l t n = frames mapped m.mem l t n ∧
      ∀ i < n, All mapped Plain (m.setFrame p words).mem l ((m.setFrame p words).mem t i) := by
  induction l generalizing d t n with
  | zero =>
    obtain rfl : d = 3 := by omega
    have below := mem_hang_of_tableAt here (by decide) le_rfl page
    have top : (m.setFrame p words).mem t = m.mem t :=
      setFrame_frame (Ne.symm (table.used p (hang_sub_frames inside p below)).2)
    refine ⟨by simp only [frames, hang_zero, top], fun i low => ?_⟩
    rw [top]
    exact table.plain i low
  | succ l ih =>
    have index : 3 - d = l + 1 := by omega
    have below := mem_hang_of_tableAt here (by omega) le_rfl page
    rw [index] at below
    have top : (m.setFrame p words).mem t = m.mem t :=
      setFrame_frame (Ne.symm (table.used p (hang_sub_frames inside p below)).2)
    obtain ⟨c, next⟩ := tableAt_above page (show d + 1 ≤ 4 by omega)
    have points : tableOf (m.mem t (tableIndex (l + 1) virt)) = some c := by
      rw [← index, ← wordAt_of_table here]
      exact next
    have used : m.mem t (tableIndex (l + 1) virt) ≠ 0 := by
      intro zero
      rw [zero, tableOf_zero] at points
      cases points
    have owned := table.owned inside
    cases (tableOf_some (owned.plain.here.table used).1).symm.trans points
    obtain ⟨tree, plain⟩ := ih (by omega) next (owned.below used).toTable (tableIndex_lt l virt)
    have apart : ∀ i < n, i ≠ tableIndex (l + 1) virt →
        ∀ f ∈ hang mapped m.mem (l + 1) (m.mem t i), (m.setFrame p words).mem f = m.mem f := by
      intro i low other f member
      refine setFrame_frame ?_
      rintro rfl
      exact frames_apart table.nodup low inside other _ member below
    refine ⟨flatMap_congr fun i member => ?_, fun i low => ?_⟩
    · rw [top]
      by_cases same : i = tableIndex (l + 1) virt
      · rw [same, hang_some points, hang_some points,
          show mapped.width = 512 from rfl, tree]
      · exact hang_congr (apart i (mem_range.mp member) same)
    · rw [top]
      by_cases same : i = tableIndex (l + 1) virt
      · rw [same]
        refine ⟨(table.plain _ inside).1, fun c table => ?_⟩
        cases points.symm.trans table
        exact plain
      · exact (table.plain i low).congr (apart i low same)

theorem Space.stored (space : Space m (pageBase cr3)) (user : virt < 2 ^ 47)
    (page : m.pageAt cr3 virt = some (p, b)) (words : Nat → Nat) :
    Space (m.setFrame p words) (pageBase cr3) ∧
      ∀ v < 2 ^ 47, (m.setFrame p words).pageAt cr3 v = m.pageAt cr3 v := by
  obtain ⟨tree, plain⟩ := frames_stored (space.toTree.page user page).2.2 words (d := 0) rfl rfl
    space.toTable (tableIndex_user user)
  have frames : userFrames (m.setFrame p words).mem (pageBase cr3) = userFrames m.mem (pageBase cr3) := by
    rw [userFrames, userFrames, tree]
  have stored : Space (m.setFrame p words) (pageBase cr3) :=
    ⟨space.wf, frames ▸ space.nodup, by rw [frames]; exact space.used, plain⟩
  refine ⟨stored, fun v inside => ?_⟩
  have same : ∀ d ≤ 3, wordAt (m.setFrame p words).mem (pageBase cr3) v d = wordAt m.mem (pageBase cr3) v d := by
    refine wordAt_congr fun d deep f here => ?_
    rw [setFrame_frame]
    rintro rfl
    exact space.page_not_table user page ⟨d, deep, v, inside, here⟩
  exact space.toTree.pageAt_congr stored.toTree inside same

end Zenus.Mem.Machine
