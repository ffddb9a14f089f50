import Zenus.Mem.PageWords
import Mathlib.Order.Interval.Finset.Nat

/-! # A range of pages and their rights

A range of user pages is described by the rights of each page: none if it is not mapped,
and otherwise whether the program may write and execute it.  The pages of the range own
their frames.  Mapping, unmapping and protecting a page are updates of the description,
the last one only if the tables over the page let the program write.
-/

namespace Zenus.Mem.Machine

open Lib.Word Option Nat List Function

/-- The word that maps a page, by the number of the page. -/
def pageWord (m : Machine) (r n : Nat) : Nat := wordAt m.mem r (4096 * n) 3

/-- The tables on the way to a page let the program write. -/
def Opened (m : Machine) (r n : Nat) : Prop := ∀ d < 3, wordAt m.mem r (4096 * n) d &&& WRITABLE ≠ 0

/-- The page is mapped and its word has the given rights; if the program may write it, so
    it may by the tables. -/
structure Shows (m : Machine) (r n : Nat) (writable executable : Bool) : Prop where
  mapped : pageWord m r n ≠ 0
  writes : (pageWord m r n &&& WRITABLE != 0) = writable
  executes : (pageWord m r n &&& NO_EXECUTE == 0) = executable
  tables : writable = true → Opened m r n

/-- The pages from number `lo` up to `hi` have the given rights. -/
structure AreaMap (m : Machine) (r lo hi : Nat) (rights : Nat → Option (Bool × Bool)) : Prop where
  tree : Tree m r
  executes : ∀ d < 3, ∀ v < 2 ^ 47, wordAt m.mem r v d &&& NO_EXECUTE = 0
  vacant : ∀ n, lo ≤ n → n < hi → rights n = none → pageWord m r n = 0
  shown : ∀ n w x, lo ≤ n → n < hi → rights n = some (w, x) → Shows m r n w x
  own : ∀ n, lo ≤ n → n < hi → rights n ≠ none →
    frameAddr (pageWord m r n) ∉ m.fa.avail ∧ ¬ IsTable m r (frameAddr (pageWord m r n))
  once : ∀ n n', lo ≤ n → n < hi → lo ≤ n' → n' < hi → rights n ≠ none → rights n' ≠ none →
    frameAddr (pageWord m r n) = frameAddr (pageWord m r n') → n = n'

def pagesIn (lo hi : Nat) (rights : Nat → Option (Bool × Bool)) : Nat :=
  ((Finset.Ico lo hi).filter fun n => (rights n).isSome).card

variable {m m' : Machine} {r lo hi n p flags cr3 mask a b : Nat}
  {rights rights' : Nat → Option (Bool × Bool)}
  {w x ok : Bool}

theorem Tree.virtToPhysRaw_page (tree : Tree m (pageBase cr3)) (user : 4096 * n < 2 ^ 47) :
    m.virtToPhysRaw cr3 (4096 * n) =
      if pageWord m (pageBase cr3) n = 0 then none else some (frameAddr (pageWord m (pageBase cr3) n)) := by
  have aligned : 4096 * n &&& 0xFFF = 0 := by
    rw [show 0xFFF = 2 ^ 12 - 1 by decide, and_two_pow_sub_one_eq_mod]
    omega
  rw [tree.virtToPhysRaw user, ← pageWord, aligned, or_zero]

/-! ## The number of pages -/

theorem pagesIn_congr (same : ∀ n, lo ≤ n → n < hi → (rights' n).isSome = (rights n).isSome) :
    pagesIn lo hi rights' = pagesIn lo hi rights := by
  refine congrArg Finset.card (Finset.filter_congr fun n inside => ?_)
  obtain ⟨low, high⟩ := Finset.mem_Ico.mp inside
  rw [same n low high]

theorem pagesIn_le (lo hi : Nat) (rights : Nat → Option (Bool × Bool)) : pagesIn lo hi rights ≤ hi - lo :=
  (Finset.card_filter_le _ _).trans (card_Ico lo hi).le

theorem pagesIn_update (low : lo ≤ n) (high : n < hi) (vacant : rights n = none) (value : Bool × Bool) :
    pagesIn lo hi (update rights n (some value)) = pagesIn lo hi rights + 1 := by
  have here : ((Finset.Ico lo hi).filter fun k => (update rights n (some value) k).isSome) =
      insert n ((Finset.Ico lo hi).filter fun k => (rights k).isSome) := by
    ext k
    by_cases same : k = n
    · subst same
      simp [low, high]
    · simp [same]
  rw [pagesIn, here, Finset.card_insert_of_notMem (by simp [vacant]), pagesIn]

theorem pagesIn_erase (low : lo ≤ n) (high : n < hi) (mapped : rights n ≠ none) :
    pagesIn lo hi (update rights n none) + 1 = pagesIn lo hi rights := by
  obtain ⟨value, here⟩ := ne_none_iff_exists'.mp mapped
  rw [← pagesIn_update low high (update_self ..) value,
    update_idem, ← here, update_eq_self]

/-! ## The permissions of a page -/

theorem Shows.permissions (shows : Shows m (pageBase cr3) n w x) (tree : Tree m (pageBase cr3))
    (executes : ∀ d < 3, ∀ v < 2 ^ 47, wordAt m.mem (pageBase cr3) v d &&& NO_EXECUTE = 0)
    (user : 4096 * n < 2 ^ 47) :
    ∃ perms, m.permissions cr3 (4096 * n) = some perms ∧ perms.writable = w ∧ perms.noExecute = !x := by
  refine ⟨_, by rw [Machine.permissions, tree.walkPath user shows.mapped, map_some], ?_, ?_⟩
  · simp only [permsOf, all_cons, all_nil, Bool.and_true]
    have leaf := shows.writes
    rw [pageWord] at leaf
    cases w with
    | false => rw [leaf, Bool.false_and]
    | true =>
      have opened := shows.tables rfl
      rw [leaf, bne_iff_ne.mpr (opened 0 (by decide)), bne_iff_ne.mpr (opened 1 (by decide)),
        bne_iff_ne.mpr (opened 2 (by decide))]
      rfl
  · simp only [permsOf, any_cons, any_nil, executes 0 (by decide) _ user,
      executes 1 (by decide) _ user, executes 2 (by decide) _ user, ← shows.executes, pageWord]
    simp [bne]

variable (area : AreaMap m r lo hi rights)

include area

theorem AreaMap.congr (same : ∀ n, lo ≤ n → n < hi → rights' n = rights n) : AreaMap m r lo hi rights' := by
  refine ⟨area.tree, area.executes, fun n low high none => ?_, fun n w x low high some => ?_,
    fun n low high mapped => ?_, fun n n' low high low' high' mapped mapped' => ?_⟩
  · exact area.vacant n low high (same n low high ▸ none)
  · exact area.shown n w x low high (same n low high ▸ some)
  · exact area.own n low high (same n low high ▸ mapped)
  · exact area.once n n' low high low' high' (same n low high ▸ mapped) (same n' low' high' ▸ mapped')

theorem AreaMap.word_iff (low : lo ≤ n) (high : n < hi) : pageWord m r n = 0 ↔ rights n = none := by
  constructor
  · intro zero
    by_contra mapped
    obtain ⟨⟨w, x⟩, eq⟩ := ne_none_iff_exists'.mp mapped
    exact (area.shown n w x low high eq).mapped zero
  · exact area.vacant n low high

omit area

theorem AreaMap.virtToPhysRaw (area : AreaMap m (pageBase cr3) lo hi rights) (room : 4096 * hi ≤ 2 ^ 47)
    (low : lo ≤ n) (high : n < hi) :
    m.virtToPhysRaw cr3 (4096 * n) =
      if rights n = none then none else some (frameAddr (pageWord m (pageBase cr3) n)) := by
  rw [area.tree.virtToPhysRaw_page (by omega)]
  simp only [area.word_iff low high]

/-! ## One page changes -/

include area

theorem AreaMap.update (tree : Tree m' r)
    (executes : ∀ d < 3, ∀ v < 2 ^ 47, wordAt m'.mem r v d &&& NO_EXECUTE = 0)
    (words : ∀ k, lo ≤ k → k < hi → k ≠ n → pageWord m' r k = pageWord m r k)
    (opened : ∀ k, lo ≤ k → k < hi → Opened m r k → Opened m' r k)
    (own : ∀ k, lo ≤ k → k < hi → k ≠ n → rights k ≠ none →
      frameAddr (pageWord m r k) ∉ m'.fa.avail ∧ ¬ IsTable m' r (frameAddr (pageWord m r k)))
    {value : Option (Bool × Bool)} (vacant : value = none → pageWord m' r n = 0)
    (shown : ∀ w x, value = some (w, x) → Shows m' r n w x ∧
      frameAddr (pageWord m' r n) ∉ m'.fa.avail ∧ ¬ IsTable m' r (frameAddr (pageWord m' r n)) ∧
      ∀ k, lo ≤ k → k < hi → k ≠ n → rights k ≠ none →
        frameAddr (pageWord m r k) ≠ frameAddr (pageWord m' r n)) :
    AreaMap m' r lo hi (Function.update rights n value) := by
  have frame : ∀ k, lo ≤ k → k < hi → Function.update rights n value k ≠ none →
      frameAddr (pageWord m' r k) ∉ m'.fa.avail ∧ ¬ IsTable m' r (frameAddr (pageWord m' r k)) := by
    intro k low high mapped
    by_cases here : k = n
    · subst here
      rw [update_self] at mapped
      obtain ⟨⟨w, x⟩, eq⟩ := ne_none_iff_exists'.mp mapped
      exact ⟨(shown w x eq).2.1, (shown w x eq).2.2.1⟩
    · rw [update_of_ne here] at mapped
      rw [words k low high here]
      exact own k low high here mapped
  refine ⟨tree, executes, fun k low high none => ?_, fun k w x low high some => ?_, frame, ?_⟩
  · by_cases here : k = n
    · subst here
      rw [update_self] at none
      exact vacant none
    · rw [update_of_ne here] at none
      rw [words k low high here]
      exact area.vacant k low high none
  · by_cases here : k = n
    · subst here
      rw [update_self] at some
      exact (shown w x some).1
    · rw [update_of_ne here] at some
      have old := area.shown k w x low high some
      have same := words k low high here
      exact ⟨same ▸ old.mapped, same ▸ old.writes, same ▸ old.executes,
        fun writes => opened k low high (old.tables writes)⟩
  · intro k k' low high low' high' mapped mapped' same
    have apart : ∀ j, lo ≤ j → j < hi → j ≠ n → Function.update rights n value j ≠ none →
        Function.update rights n value n ≠ none → frameAddr (pageWord m' r j) ≠ frameAddr (pageWord m' r n) := by
      intro j low high other mapped here
      rw [update_of_ne other] at mapped
      rw [update_self] at here
      obtain ⟨⟨w, x⟩, eq⟩ := ne_none_iff_exists'.mp here
      rw [words j low high other]
      exact (shown w x eq).2.2.2 j low high other mapped
    by_cases here : k = n
    · subst here
      by_contra other
      exact apart k' low' high' (Ne.symm other) mapped' mapped same.symm
    · by_cases here' : k' = n
      · subst here'
        exact absurd same (apart k low high here mapped mapped')
      · rw [update_of_ne here] at mapped
        rw [update_of_ne here'] at mapped'
        rw [words k low high here, words k' low' high' here'] at same
        exact area.once k k' low high low' high' mapped mapped' same

/-! ## Unmapping -/

theorem AreaMap.unmapped (room : 4096 * hi ≤ 2 ^ 47) (low : lo ≤ n)
    (high : n < hi) (mapped : rights n ≠ none) :
    ∃ t, leafSlot m.mem (4096 * n) 3 r = some (t, tableIndex 0 (4096 * n), pageWord m r n) ∧
      AreaMap ({ m with fa := m.fa.freeFrame (frameAddr (pageWord m r n)) }.setWord t
        (tableIndex 0 (4096 * n)) 0) r lo hi (Function.update rights n none) := by
  have user : 4096 * n < 2 ^ 47 := by omega
  obtain ⟨t, -, table, slot⟩ := (area.tree.leafSlot user).resolve_left fun none =>
    mapped ((area.word_iff low high).mp none.1)
  refine ⟨t, slot, ?_⟩
  obtain ⟨used, other⟩ := area.own n low high mapped
  have tree := area.tree.freed (frameAddr_lt _) used other
  obtain ⟨change, upper, pages⟩ := tree.setPage user table (.inl rfl)
  have words : ∀ k, k < hi → pageWord ({ m with fa := m.fa.freeFrame (frameAddr (pageWord m r n)) }.setWord t
      (tableIndex 0 (4096 * n)) 0) r k = if k = n then 0 else pageWord m r k := by
    intro k high
    refine (pages (4096 * k) (by omega)).trans ?_
    rw [Nat.mul_div_cancel_left k (by decide), Nat.mul_div_cancel_left n (by decide)]
    rfl
  refine area.update change.tree (fun d deep v inside => ?_) (fun k _ high other => ?_)
    (fun k _ high opened d deep => ?_) (fun k low' high' other' mapped' => ⟨fun free => ?_, ?_⟩)
    (fun _ => ?_) (fun w x no => by cases no)
  · rw [upper d deep v inside]
    exact area.executes d deep v inside
  · rw [words k high, if_neg other]
  · rw [upper d deep _ (by omega)]
    exact opened d deep
  · obtain ⟨used', -⟩ := area.own k low' high' mapped'
    rcases (area.tree.wf.freeFrame (frameAddr_lt _) used).2 free with same | free
    · exact other' (area.once k n low' high' low high mapped' mapped same)
    · exact used' free
  · intro table'
    obtain ⟨used', other⟩ := area.own k low' high' mapped'
    rcases change.tables _ table' with old | free
    · exact other old
    · rcases (area.tree.wf.freeFrame (frameAddr_lt _) used).2 free with same | free
      · exact other' (area.once k n low' high' low high mapped' mapped same)
      · exact used' free
  · rw [words n high, if_pos rfl]

omit area

/-! ## Mapping -/

theorem noExecute_widens {w w' : Nat} (widens : Widens flags w w') (old : w &&& NO_EXECUTE = 0) :
    w' &&& NO_EXECUTE = 0 := by
  rcases widens with rfl | rfl | ⟨-, q, frame, rfl⟩
  · exact old
  · rw [Nat.and_or_distrib_right, old, parentFlags_and (by decide), or_zero]
  · rw [Nat.and_or_distrib_right, frame.and, parentFlags_and (by decide), or_zero,
      show 0x000FFFFFFFFFF000 &&& NO_EXECUTE = 0 by decide, and_zero]

theorem writable_widens {w w' : Nat} (widens : Widens flags w w') (old : w &&& WRITABLE ≠ 0) :
    w' &&& WRITABLE ≠ 0 := by
  rcases widens with rfl | rfl | ⟨rfl, -⟩
  · exact old
  · exact and_or_ne_zero _ old
  · exact absurd (zero_and _) old

include area

theorem AreaMap.allocated (got : m.Allocated p m') : AreaMap m' r lo hi rights := by
  have same : ∀ k, pageWord m' r k = pageWord m r k := fun k => by rw [pageWord, got.store]; rfl
  have tables : ∀ f, IsTable m' r f ↔ IsTable m r f := fun f => by rw [IsTable, got.store]; rfl
  refine ⟨area.tree.allocated got, ?_, fun n low high none => ?_, fun n w x low high some => ?_,
    fun n low high mapped => ?_, ?_⟩
  · rw [got.store]
    exact area.executes
  · rw [same]
    exact area.vacant n low high none
  · obtain ⟨mapped, writes, executes, opened⟩ := area.shown n w x low high some
    refine ⟨same n ▸ mapped, same n ▸ writes, same n ▸ executes, fun yes => ?_⟩
    rw [Opened, got.store]
    exact opened yes
  · rw [same, tables]
    exact ⟨fun free => (area.own n low high mapped).1 (got.sub free).1, (area.own n low high mapped).2⟩
  · simp only [same]
    exact area.once

theorem AreaMap.mapped (room : 4096 * hi ≤ 2 ^ 47) (low : lo ≤ n)
    (high : n < hi) (vacant : rights n = none) (frame : IsFrame p) (used : p ∉ m.fa.avail)
    (other : ¬ IsTable m r p)
    (apart : ∀ k, lo ≤ k → k < hi → rights k ≠ none → frameAddr (pageWord m r k) ≠ p)
    (good : PageFlags flags) (writes : (flags &&& WRITABLE != 0) = w)
    (executes : (flags &&& NO_EXECUTE == 0) = x) (walk : MapWalk (4096 * n) p flags 3 r m ok m') :
    AreaMap m' r lo hi (if ok then Function.update rights n (some (w, x)) else rights) := by
  have user : 4096 * n < 2 ^ 47 := by omega
  have effect := area.tree.mapped walk good user
  have words : ∀ k, k < hi → pageWord m' r k = if ok = true ∧ k = n then p ||| flags else pageWord m r k := by
    intro k high
    refine (effect.pages (4096 * k) (by omega)).trans ?_
    rw [Nat.mul_div_cancel_left k (by decide), Nat.mul_div_cancel_left n (by decide)]
    rfl
  have nx : ∀ d < 3, ∀ v < 2 ^ 47, wordAt m'.mem r v d &&& NO_EXECUTE = 0 :=
    fun d deep v inside => noExecute_widens (effect.words d deep v inside) (area.executes d deep v inside)
  have opened : ∀ k, lo ≤ k → k < hi → Opened m r k → Opened m' r k := fun k _ high old d deep =>
    writable_widens (effect.words d deep _ (by omega)) (old d deep)
  have own : ∀ f, f ∉ m.fa.avail → ¬ IsTable m r f → f ∉ m'.fa.avail ∧ ¬ IsTable m' r f := by
    intro f used outside
    exact ⟨fun free => used (effect.sub free), fun table => (effect.tables f table).elim outside used⟩
  have owned := fun k low high mapped =>
    own _ (area.own k low high mapped).1 (area.own k low high mapped).2
  cases ok with
  | false =>
    have same : ∀ k, k < hi → pageWord m' r k = pageWord m r k := fun k high => by simp [words k high]
    have unchanged : AreaMap m' r lo hi (Function.update rights n none) :=
      area.update effect.tree nx (fun k _ high _ => same k high)
        opened (fun k low high _ mapped => owned k low high mapped)
        (fun _ => (same n high).trans (area.vacant n low high vacant)) (fun w x no => by cases no)
    rwa [← vacant, update_eq_self] at unchanged
  | true =>
    have word : pageWord m' r n = p ||| flags := by rw [words n high, if_pos ⟨rfl, rfl⟩]
    have address : frameAddr (p ||| flags) = p := by
      have := tableOf_page frame good
      rw [tableOf_some (present_page p good)] at this
      exact some.inj this
    have bit : ∀ {mask : Nat}, 0x000FFFFFFFFFF000 &&& mask = 0 → (p ||| flags) &&& mask = flags &&& mask := by
      intro mask clear
      rw [Nat.and_or_distrib_right, frame.and, clear, and_zero, zero_or]
    refine area.update effect.tree nx (fun k _ high other => ?_) opened
      (fun k low high _ mapped => owned k low high mapped) (fun no => by cases no) fun w' x' value => ?_
    · rw [words k high, if_neg fun both => other both.2]
    · cases value
      rw [word, address]
      refine ⟨⟨?_, ?_, ?_, fun yes d deep => ?_⟩, (own p used other).1, (own p used other).2,
        fun k low high _ mapped => apart k low high mapped⟩
      · rw [word]
        intro zero
        exact present_page p good (by rw [zero, zero_and])
      · rw [word, bit (by decide), writes]
      · rw [word, bit (by decide), executes]
      · have has := effect.includes rfl d deep
        rw [← has, Nat.or_comm]
        refine and_or_ne_zero _ ?_
        rw [parentFlags, Nat.and_assoc,
          show (PRESENT ||| WRITABLE ||| USER_ACCESSIBLE) &&& WRITABLE = WRITABLE by decide]
        exact bne_iff_ne.mp (writes.trans yes)

omit area

/-! ## Protecting -/

/-- The word that `protect_page_raw` makes of the word of a page. -/
def protectWord (writable executable : Bool) (entry : Nat) : Nat :=
  let entry := entry &&& bnot WRITABLE &&& bnot NO_EXECUTE
  let entry := if writable then entry ||| WRITABLE else entry
  if executable then entry else entry ||| NO_EXECUTE

section

variable (w x : Bool) (e : Nat)

theorem protectWord_and (kept : bnot WRITABLE &&& (bnot NO_EXECUTE &&& mask) = mask) (low : WRITABLE &&& mask = 0)
    (high : NO_EXECUTE &&& mask = 0) : protectWord w x e &&& mask = e &&& mask := by
  cases w <;> cases x <;>
    simp [protectWord, Nat.and_or_distrib_right, Nat.and_assoc, kept, low, high]

theorem protectWord_frame : frameAddr (protectWord w x e) = frameAddr e :=
  protectWord_and w x e (by decide) (by decide) (by decide)

theorem protectWord_present : protectWord w x e &&& PRESENT = e &&& PRESENT :=
  protectWord_and w x e (by decide) (by decide) (by decide)

theorem protectWord_writable : (protectWord w x e &&& WRITABLE != 0) = w := by
  have clear : bnot WRITABLE &&& (bnot NO_EXECUTE &&& WRITABLE) = 0 := by decide
  have apart : NO_EXECUTE &&& WRITABLE = 0 := by decide
  cases w <;> cases x <;>
    simp [protectWord, Nat.and_or_distrib_right, Nat.and_assoc, clear, apart] <;> decide

theorem protectWord_executable : (protectWord w x e &&& NO_EXECUTE == 0) = x := by
  have clear : bnot WRITABLE &&& (bnot NO_EXECUTE &&& NO_EXECUTE) = 0 := by decide
  have apart : WRITABLE &&& NO_EXECUTE = 0 := by decide
  cases w <;> cases x <;>
    simp [protectWord, Nat.and_or_distrib_right, Nat.and_assoc, clear, apart] <;> decide

end

/-- The pages from number `a` up to `b` that are mapped have got new rights. -/
structure Protected (m m' : Machine) (r a b : Nat) (w x : Bool) : Prop where
  change : Local m m' r
  fa : m'.fa = m.fa
  upper : ∀ d < 3, ∀ v < 2 ^ 47, wordAt m'.mem r v d = wordAt m.mem r v d
  pages : ∀ k, 4096 * k < 2 ^ 47 → pageWord m' r k =
    if a ≤ k ∧ k < b ∧ pageWord m r k ≠ 0 then protectWord w x (pageWord m r k) else pageWord m r k

theorem Protected.refl (tree : Tree m r) (a : Nat) (w x : Bool) : Protected m m r a a w x :=
  ⟨.refl tree, rfl, fun _ _ _ _ => rfl, fun k _ => (if_neg (by omega)).symm⟩

theorem Protected.next (before : Protected m m' (pageBase cr3) a b w x) (order : a ≤ b)
    (user : 4096 * b < 2 ^ 47) :
    Protected m (m'.protectPageRaw cr3 (4096 * b) w x).2 (pageBase cr3) a (b + 1) w x := by
  have same : pageWord m' (pageBase cr3) b = pageWord m (pageBase cr3) b := by
    rw [before.pages b user, if_neg (by omega)]
  rw [protectPageRaw]
  rcases before.change.tree.leafSlot user with ⟨zero, slot⟩ | ⟨t, used, table, slot⟩
  · rw [slot]
    refine ⟨before.change, before.fa, before.upper, fun k inside => ?_⟩
    rw [before.pages k inside]
    by_cases here : k = b
    · subst here
      rw [if_neg (by omega), if_neg fun both => both.2.2 (same.symm.trans zero)]
    · simp only [show k < b + 1 ↔ k < b by omega]
  · rw [slot, ← pageWord, same]
    have present : pageWord m (pageBase cr3) b &&& PRESENT ≠ 0 := by
      rw [← same]
      exact fun absent => used ((before.change.tree.absent_iff le_rfl user).mp absent)
    obtain ⟨change, upper, pages⟩ := before.change.tree.setPage
      (w := protectWord w x (pageWord m (pageBase cr3) b)) user table
      (.inr ⟨by rwa [protectWord_present], fun no => absurd no (lt_irrefl 0)⟩)
    refine ⟨before.change.trans change, before.fa, fun d deep v inside => ?_, fun k inside => ?_⟩
    · exact (upper d deep v inside).trans (before.upper d deep v inside)
    · refine (pages (4096 * k) inside).trans ?_
      rw [Nat.mul_div_cancel_left k (by decide), Nat.mul_div_cancel_left b (by decide), ← pageWord]
      by_cases here : k = b
      · subst here
        rw [if_pos rfl, if_pos ⟨order, by omega, fun zero => used (same.trans zero)⟩]
      · rw [if_neg here, before.pages k inside]
        simp only [show k < b + 1 ↔ k < b by omega]

theorem Tree.protected (tree : Tree m (pageBase cr3)) (a count : Nat) (w x : Bool)
    (user : 4096 * (a + count) ≤ 2 ^ 47) :
    Protected m ((range count).foldl (fun m i =>
      (m.protectPageRaw cr3 (4096 * a + i * 0x1000) w x).2) m) (pageBase cr3) a (a + count) w x := by
  induction count with
  | zero => exact .refl tree a w x
  | succ count ih =>
    rw [range_succ, foldl_append, foldl_cons, foldl_nil,
      show 4096 * a + count * 0x1000 = 4096 * (a + count) by omega]
    exact (ih (by omega)).next (by omega) (by omega)

theorem AreaMap.protected (area : AreaMap m r lo hi rights) (room : 4096 * hi ≤ 2 ^ 47)
    (change : Protected m m' r a b w x)
    (opened : w = true → ∀ n, lo ≤ n → n < hi → a ≤ n → n < b → rights n ≠ none → Opened m r n) :
    AreaMap m' r lo hi fun n => if a ≤ n ∧ n < b then (rights n).map fun _ => (w, x) else rights n := by
  have frame : ∀ k, k < hi → frameAddr (pageWord m' r k) = frameAddr (pageWord m r k) := by
    intro k high
    rw [change.pages k (by omega)]
    split_ifs
    · exact protectWord_frame ..
    · rfl
  have mapped : ∀ k, ((if a ≤ k ∧ k < b then (rights k).map fun _ => (w, x) else rights k) ≠ none) ↔
      rights k ≠ none := by
    intro k
    split_ifs <;> simp
  have tables : ∀ f, IsTable m' r f → IsTable m r f := by
    rintro f ⟨d, deep, v, inside, table⟩
    refine ⟨d, deep, v, inside, ?_⟩
    cases d with
    | zero => exact table
    | succ d =>
      rw [tableAt, change.upper d (by omega) v inside] at table
      exact table
  refine ⟨change.change.tree, fun d deep v inside => ?_, fun n low high none => ?_,
    fun n w' x' low high some => ?_, fun n low high here => ?_, fun n n' low high low' high' here here' => ?_⟩
  · rw [change.upper d deep v inside]
    exact area.executes d deep v inside
  · have zero := area.vacant n low high (not_not.mp fun here => (mapped n).mpr here none)
    rw [change.pages n (by omega), if_neg fun both => both.2.2 zero, zero]
  · have same : Opened m r n → Opened m' r n := fun old d deep => by
      rw [change.upper d deep _ (by omega)]
      exact old d deep
    split_ifs at some with inside
    · obtain ⟨old, here, value⟩ := map_eq_some_iff.mp some
      cases value
      have used := (area.shown n old.1 old.2 low high here).mapped
      have word : pageWord m' r n = protectWord w x (pageWord m r n) := by
        rw [change.pages n (by omega), if_pos ⟨inside.1, inside.2, used⟩]
      refine ⟨?_, ?_, ?_, fun yes => same (opened yes n low high inside.1 inside.2 (by simp [here]))⟩
      · intro zero
        have absent := protectWord_present w x (pageWord m r n)
        rw [← word, zero, zero_and] at absent
        exact used ((area.tree.absent_iff le_rfl (by omega)).mp absent.symm)
      · rw [word, protectWord_writable]
      · rw [word, protectWord_executable]
    · obtain ⟨used, writes, executes, tables⟩ := area.shown n w' x' low high some
      have word : pageWord m' r n = pageWord m r n := by
        rw [change.pages n (by omega), if_neg fun both => inside ⟨both.1, both.2.1⟩]
      exact ⟨word ▸ used, word ▸ writes, word ▸ executes, fun yes => same (tables yes)⟩
  · obtain ⟨used, outside⟩ := area.own n low high ((mapped n).mp here)
    rw [frame n high, change.fa]
    exact ⟨used, fun table => outside (tables _ table)⟩
  · rw [frame n high, frame n' high']
    exact area.once n n' low high low' high' ((mapped n).mp here) ((mapped n').mp here')

end Zenus.Mem.Machine
