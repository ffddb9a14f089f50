import Zenus.Mem.AreaMap

/-! # Several spaces

The user halves of several spaces that share no table.  A change inside one of them is not
seen in the others, and giving back frames that are no tables is seen in none.
-/

namespace Zenus.Mem.Machine

open FrameAllocator

/-- The spaces with the given roots. -/
structure Forest (m : Machine) (R : Nat → Prop) : Prop where
  wf : m.fa.Wf
  tree : ∀ r, R r → Tree m r
  apart : ∀ r r', R r → R r' → r ≠ r' → ∀ f, IsTable m r f → ¬ IsTable m r' f

def ShowsFrame (m : Machine) (r n f : Nat) : Prop :=
  4096 * n < 2 ^ 47 ∧ pageWord m r n ≠ 0 ∧ frameAddr (pageWord m r n) = f

variable {m m' : Machine} {R : Nat → Prop} {r n f cr3 : Nat}

theorem Tree.shown_iff (tree : Tree m (pageBase cr3)) :
    ShowsFrame m (pageBase cr3) n f ↔ 4096 * n < 2 ^ 47 ∧ m.virtToPhysRaw cr3 (4096 * n) = some f := by
  refine and_congr_right fun user => ?_
  rw [tree.virtToPhysRaw_page user]
  by_cases zero : pageWord m (pageBase cr3) n = 0
  · rw [if_pos zero]
    exact iff_of_false (fun both => both.1 zero) (Option.some_ne_none f).symm
  · rw [if_neg zero]
    exact ⟨fun both => congrArg some both.2, fun same => ⟨zero, Option.some.inj same⟩⟩

/-- The spaces after a change inside one of them. -/
structure Forest.Changed (m m' : Machine) (R : Nat → Prop) (r : Nat) : Prop where
  forest : Forest m' R
  tables : ∀ r', R r' → ∀ f, IsTable m' r' f → IsTable m r' f ∨ f ∈ m.fa.avail
  shown : ∀ r', R r' → r' ≠ r → ∀ n f, ShowsFrame m' r' n f ↔ ShowsFrame m r' n f

theorem Forest.change (forest : Forest m R) (here : R r) (change : Local m m' r) : Forest.Changed m m' R r := by
  have words : ∀ r', R r' → r' ≠ r → ∀ v < 2 ^ 47, ∀ d ≤ 3, wordAt m'.mem r' v d = wordAt m.mem r' v d := by
    intro r' root other v user
    refine wordAt_congr fun d deep f table => ?_
    have table : IsTable m r' f := ⟨d, deep, v, user, table⟩
    rw [change.keep f ((forest.tree r' root).used deep user ‹_›) (forest.apart r' r root here other f table)]
  have moved : ∀ r', R r' → r' ≠ r → Tree m' r' ∧ ∀ f, IsTable m' r' f → IsTable m r' f := fun r' root other =>
    (forest.tree r' root).congr change.tree.wf change.sub (words r' root other)
  have tables : ∀ r', R r' → ∀ f, IsTable m' r' f → IsTable m r' f ∨ f ∈ m.fa.avail := by
    intro r' root f table
    by_cases same : r' = r
    · subst same
      exact change.tables f table
    · exact .inl ((moved r' root same).2 f table)
  refine ⟨⟨change.tree.wf, fun r' root => ?_, ?_⟩, tables, fun r' root other n f => ?_⟩
  · by_cases same : r' = r
    · exact same ▸ change.tree
    · exact (moved r' root same).1
  · -- a table that is new in one space was available, and no table of the other
    have fresh : ∀ r', R r' → ∀ f ∈ m.fa.avail, ¬ IsTable m r' f := by
      rintro r' root f free ⟨d, deep, v, user, table⟩
      exact (forest.tree r' root).used deep user table free
    intro r₁ r₂ root₁ root₂ different f table₁ table₂
    by_cases first : r₁ = r
    · have old := (moved r₂ root₂ fun same => different (first.trans same.symm)).2 f table₂
      rcases tables r₁ root₁ f table₁ with table₁ | free
      · exact forest.apart r₁ r₂ root₁ root₂ different f table₁ old
      · exact fresh r₂ root₂ f free old
    · have old := (moved r₁ root₁ first).2 f table₁
      rcases tables r₂ root₂ f table₂ with table₂ | free
      · exact forest.apart r₁ r₂ root₁ root₂ different f old table₂
      · exact fresh r₁ root₁ f free old
  · refine and_congr_right fun user => ?_
    rw [pageWord, pageWord, words r' root other _ user 3 le_rfl]

theorem Forest.allocator (forest : Forest m R) (wf : m'.fa.Wf) (store : m'.mem = m.mem)
    (used : ∀ r, R r → ∀ f, IsTable m r f → f ∉ m'.fa.avail) : Forest m' R := by
  have tables : ∀ r f, IsTable m' r f ↔ IsTable m r f := fun r f => by rw [IsTable, IsTable, store]
  refine ⟨wf, fun r root => ⟨wf, ?_, ?_, ?_⟩, fun r r' root root' other f => ?_⟩
  · rw [store]
    exact (forest.tree r root).once
  · rw [store]
    exact fun deep user table => used r root _ ⟨_, deep, _, user, table⟩
  · rw [store]
    exact (forest.tree r root).plain
  · rw [tables, tables]
    exact forest.apart r r' root root' other f

theorem foldl_freeFrame {frames : List Nat} {fa : FrameAllocator} (wf : fa.Wf) (nodup : frames.Nodup)
    (all : ∀ f ∈ frames, IsFrame f ∧ f ∉ fa.avail) :
    (frames.foldl freeFrame fa).Wf ∧
      ∀ f ∈ (frames.foldl freeFrame fa).avail, f ∈ frames ∨ f ∈ fa.avail := by
  induction frames generalizing fa with
  | nil => exact ⟨wf, fun _ => .inr⟩
  | cons p rest ih =>
    obtain ⟨isFrame, used⟩ := all p (.head _)
    obtain ⟨wf', only⟩ := wf.freeFrame isFrame.lt used
    obtain ⟨absent, nodup⟩ := List.nodup_cons.mp nodup
    obtain ⟨wf'', more⟩ := ih wf' nodup fun f member => by
      obtain ⟨isFrame, used⟩ := all f (.tail _ member)
      refine ⟨isFrame, fun free => ?_⟩
      rcases only free with rfl | free
      · exact absent member
      · exact used free
    refine ⟨wf'', fun f free => ?_⟩
    rcases more f free with later | free
    · exact .inl (.tail _ later)
    · rcases only free with rfl | free
      · exact .inl (.head _)
      · exact .inr free

end Zenus.Mem.Machine
