import Zenus.Mem.PageView

/-! # The words on the way to a page

The tables of a space, seen from the addresses whose way leads through them: for each
address and each depth the word that the walk reads there, zero where the walk has ended.
A tree has no table on two ways, so that writing a word changes it for exactly the
addresses on whose way it is.  A tree owns its tables and not its pages, which may be
shared with other trees or occur in it twice.
-/

namespace Zenus.Mem.Machine

open Option Machine Nat

/-- The word that the walk to an address reads, from the PML4 at depth zero to the last
    level at depth three; zero if the walk has ended before. -/
def wordAt (mem : Nat → Nat → Nat) (root virt : Nat) : Nat → Nat
  | 0 => mem root (tableIndex 3 virt)
  | d + 1 => ((tableOf (wordAt mem root virt d)).map fun t => mem t (tableIndex (2 - d) virt)).getD 0

def tableAt (mem : Nat → Nat → Nat) (root virt : Nat) : Nat → Option Nat
  | 0 => some root
  | d + 1 => tableOf (wordAt mem root virt d)

/-- The ways to two addresses agree above the given depth. -/
def Same (d virt virt' : Nat) : Prop := ∀ k < d, tableIndex (3 - k) virt = tableIndex (3 - k) virt'

instance (d virt virt' : Nat) : Decidable (Same d virt virt') :=
  Nat.decidableBallLT d fun k _ => tableIndex (3 - k) virt = tableIndex (3 - k) virt'

/-- The user half of a space in which no table is on two ways, and none is available to
    the allocator. -/
structure Tree (m : Machine) (r : Nat) : Prop where
  wf : m.fa.Wf
  once : ∀ {d d' v v' f}, d ≤ 3 → d' ≤ 3 → v < 2 ^ 47 → v' < 2 ^ 47 →
    tableAt m.mem r v d = some f → tableAt m.mem r v' d' = some f → d = d' ∧ Same d v v'
  used : ∀ {d v f}, d ≤ 3 → v < 2 ^ 47 → tableAt m.mem r v d = some f → f ∉ m.fa.avail
  plain : ∀ {d v}, d ≤ 3 → v < 2 ^ 47 → Plain (3 - d) (wordAt m.mem r v d)

def IsTable (m : Machine) (r f : Nat) : Prop := ∃ d ≤ 3, ∃ v < 2 ^ 47, tableAt m.mem r v d = some f

variable {m m' m₁ : Machine} {mem mem' : Nat → Nat → Nat}
  {r t p q d k l w virt v v' f flags v'' w' w'' cr3 : Nat}
variable {ok : Bool} {new : List Nat}

/-! ## Ways -/

theorem tableOf_zero : tableOf 0 = none := tableOf_none (zero_and _)

theorem wordAt_of_table (table : tableAt mem r v d = some t) :
    wordAt mem r v d = mem t (tableIndex (3 - d) v) := by
  cases d with
  | zero =>
    cases table
    rfl
  | succ d =>
    rw [wordAt, show tableOf (wordAt mem r v d) = some t from table, map_some, getD_some,
      show 3 - (d + 1) = 2 - d by omega]

theorem wordAt_of_none (nothing : tableAt mem r v d = none) : wordAt mem r v d = 0 := by
  cases d with
  | zero => cases nothing
  | succ d => rw [wordAt, show tableOf (wordAt mem r v d) = .none from nothing, map_none, getD_none]

theorem wordAt_ended (ended : wordAt mem r v d = 0) (deeper : d ≤ k) : wordAt mem r v k = 0 := by
  induction k, deeper using le_induction with
  | base => exact ended
  | succ k _ ih => rw [wordAt, ih, tableOf_zero, map_none, getD_none]

theorem Same.le (same : Same d v v') (above : k ≤ d) : Same k v v' := fun j low => same j (by omega)

theorem Same.succ_iff : Same (d + 1) v v' ↔ Same d v v' ∧ tableIndex (3 - d) v = tableIndex (3 - d) v' := by
  constructor
  · exact fun same => ⟨same.le (le_succ d), same d (lt_succ_self d)⟩
  · rintro ⟨same, last⟩ k low
    rcases Nat.lt_succ_iff_lt_or_eq.mp low with low | rfl
    · exact same k low
    · exact last

theorem Same.symm (same : Same d v v') : Same d v' v := fun k low => (same k low).symm

theorem Same.trans (first : Same d v v') (second : Same d v' v'') : Same d v v'' :=
  fun k low => (first k low).trans (second k low)

theorem Same.wordAt (same : Same (d + 1) v v') : wordAt mem r v d = wordAt mem r v' d := by
  induction d with
  | zero => exact congrArg (mem r) (same 0 (zero_lt_one))
  | succ d ih =>
    have last := same (d + 1) (lt_succ_self _)
    rw [show 3 - (d + 1) = 2 - d by omega] at last
    rw [Machine.wordAt, Machine.wordAt, ih (same.le (le_succ _)), last]

theorem Same.tableAt (same : Same d v v') : tableAt mem r v d = tableAt mem r v' d := by
  cases d with
  | zero => rfl
  | succ d => rw [tableAt, tableAt, same.wordAt]

theorem same_page_iff (user : v < 2 ^ 47) (user' : v' < 2 ^ 47) : Same 4 v v' ↔ v / 4096 = v' / 4096 := by
  constructor
  · intro same
    by_contra other
    obtain ⟨k, low, parts⟩ := apart_of_pages user user' other
    have := same (3 - k) (by omega)
    rw [show 3 - (3 - k) = k by omega] at this
    exact parts this
  · intro page k _
    unfold tableIndex
    rw [shiftRight_add, shiftRight_add, shiftRight_eq_div_pow v, shiftRight_eq_div_pow v',
      show 2 ^ 12 = 4096 by decide, page]

/-! ## A space without pages -/

theorem wordAt_empty (empty : ∀ i < 256, mem r i = 0) (user : v < 2 ^ 47) (d : Nat) : wordAt mem r v d = 0 :=
  wordAt_ended (d := 0) (empty _ (tableIndex_user user)) (Nat.zero_le d)

theorem tableAt_empty (empty : ∀ i < 256, mem r i = 0) (user : v < 2 ^ 47) (table : tableAt mem r v d = some f) :
    d = 0 ∧ f = r := by
  cases d with
  | zero => exact ⟨rfl, (some.inj table).symm⟩
  | succ d =>
    rw [tableAt, wordAt_empty empty user, tableOf_zero] at table
    cases table

theorem tree_of_empty (wf : m.fa.Wf) (used : r ∉ m.fa.avail) (empty : ∀ i < 256, m.mem r i = 0) : Tree m r := by
  refine ⟨wf, ?_, ?_, ?_⟩
  · intro d d' v v' f _ _ user user' here there
    obtain ⟨rfl, -⟩ := tableAt_empty empty user here
    obtain ⟨rfl, -⟩ := tableAt_empty empty user' there
    exact ⟨rfl, fun k low => absurd low (not_lt_zero k)⟩
  · intro d v f _ user here
    obtain ⟨-, rfl⟩ := tableAt_empty empty user here
    exact used
  · exact fun _ user => .inl (wordAt_empty empty user _)

/-! ## The same words in another memory -/

theorem wordAt_congr (same : ∀ d ≤ 3, ∀ f, tableAt mem r v d = some f →
    mem' f (tableIndex (3 - d) v) = mem f (tableIndex (3 - d) v)) :
    ∀ d ≤ 3, wordAt mem' r v d = wordAt mem r v d := by
  intro d
  induction d with
  | zero => exact fun deep => same 0 deep r rfl
  | succ d ih =>
    intro deep
    have above : tableAt mem' r v (d + 1) = tableAt mem r v (d + 1) := congrArg tableOf (ih (by omega))
    cases here : tableAt mem r v (d + 1) with
    | none => rw [wordAt_of_none here, wordAt_of_none (above.trans here)]
    | some f => rw [wordAt_of_table here, wordAt_of_table (above.trans here), same _ deep f here]

theorem tableAt_congr (words : ∀ d ≤ 3, wordAt mem' r v d = wordAt mem r v d) (deep : d ≤ 3) :
    tableAt mem' r v d = tableAt mem r v d := by
  cases d with
  | zero => rfl
  | succ d => exact congrArg tableOf (words d (by omega))

theorem Tree.congr (tree : Tree m r) (wf : m'.fa.Wf) (sub : m'.fa.avail ⊆ m.fa.avail)
    (words : ∀ v < 2 ^ 47, ∀ d ≤ 3, wordAt m'.mem r v d = wordAt m.mem r v d) :
    Tree m' r ∧ ∀ f, IsTable m' r f → IsTable m r f := by
  have tables : ∀ {d v}, d ≤ 3 → v < 2 ^ 47 → tableAt m'.mem r v d = tableAt m.mem r v d :=
    fun deep user => tableAt_congr (words _ user) deep
  refine ⟨⟨wf, ?_, ?_, ?_⟩, ?_⟩
  · intro d d' v v' f deep deep' user user' here there
    exact tree.once deep deep' user user' (tables deep user ▸ here) (tables deep' user' ▸ there)
  · exact fun deep user here free => tree.used deep user (tables deep user ▸ here) (sub free)
  · intro d v deep user
    rw [words v user d deep]
    exact tree.plain deep user
  · rintro f ⟨d, deep, v, user, here⟩
    exact ⟨d, deep, v, user, tables deep user ▸ here⟩

/-! ## Writing one word -/

/-- A word of a table is written, perhaps after a frame was taken and zeroed. -/
structure Edit (m m' : Machine) (t i w : Nat) : Prop where
  word : m'.mem t i = w
  index : ∀ j, j ≠ i → m'.mem t j = m.mem t j
  frame : ∀ f, f ∉ m.fa.avail → f ≠ t → m'.mem f = m.mem f
  free : ∀ f ∈ m'.fa.avail, f ≠ t → m'.mem f = m.mem f

theorem edit_setWord (m : Machine) (t i w : Nat) : Edit m (m.setWord t i w) t i w :=
  ⟨setWord_self .., fun _ other => setWord_index other, fun _ _ other => setWord_frame other,
    fun _ _ other => setWord_frame other⟩

/-- What is below the word is the same as before, or new and empty. -/
def Continues (m m' : Machine) (r virt d w : Nat) : Prop :=
  tableOf w = tableOf (wordAt m.mem r virt d) ∨
    wordAt m.mem r virt d = 0 ∧ ∃ q, tableOf w = some q ∧ q ∈ m.fa.avail ∧ q ∉ m'.fa.avail ∧ ∀ j, m'.mem q j = 0

/-- The word at depth `d` on the way to an address becomes `w`. -/
structure EditAt (m m' : Machine) (r virt d t w : Nat) : Prop extends Edit m m' t (tableIndex (3 - d) virt) w where
  deep : d ≤ 3
  user : virt < 2 ^ 47
  table : tableAt m.mem r virt d = some t
  next : d < 3 → Continues m m' r virt d w

section

variable (tree : Tree m r) (edit : EditAt m m' r virt d t w)

include tree edit

/-- Every address sees the new word at its depth if it is on the way, and no other change. -/
theorem Tree.words : ∀ k ≤ 3, ∀ v < 2 ^ 47, wordAt m'.mem r v k =
    if k = d ∧ Same (d + 1) v virt then w else wordAt m.mem r v k := by
  -- a word that is read from the table it was read from before
  have read : ∀ k ≤ 3, ∀ v < 2 ^ 47, tableAt m'.mem r v k = tableAt m.mem r v k →
      wordAt m'.mem r v k = if k = d ∧ Same (d + 1) v virt then w else wordAt m.mem r v k := by
    intro k low v inside same
    cases here : tableAt m.mem r v k with
    | none =>
      rw [wordAt_of_none here, wordAt_of_none (same.trans here), if_neg]
      rintro ⟨rfl, way⟩
      rw [(way.le (le_succ _)).tableAt, edit.table] at here
      cases here
    | some f =>
      rw [wordAt_of_table here, wordAt_of_table (same.trans here)]
      by_cases written : f = t
      · subst written
        obtain ⟨rfl, way⟩ := tree.once low edit.deep inside edit.user here edit.table
        by_cases index : tableIndex (3 - k) v = tableIndex (3 - k) virt
        · rw [if_pos ⟨rfl, Same.succ_iff.mpr ⟨way, index⟩⟩, index, edit.word]
        · rw [if_neg fun both => index (Same.succ_iff.mp both.2).2, edit.index _ index]
      · rw [edit.frame f (tree.used low inside here) written, if_neg]
        rintro ⟨rfl, way⟩
        rw [(way.le (le_succ _)).tableAt, edit.table] at here
        exact written (some.inj here).symm
  intro k
  induction k with
  | zero => exact fun low v inside => read 0 low v inside rfl
  | succ k ih =>
    intro low v inside
    have above := ih (by omega) v inside
    by_cases changed : k = d ∧ Same (d + 1) v virt
    · obtain ⟨rfl, way⟩ := changed
      rw [if_pos ⟨rfl, way⟩] at above
      rcases edit.next (by omega) with same | ⟨ended, q, points, -, -, zero⟩
      · exact read _ low v inside (by rw [tableAt, tableAt, above, way.wordAt, same])
      · rw [if_neg (by omega), wordAt, above, points, map_some, zero, getD_some,
          wordAt, way.wordAt, ended, tableOf_zero, map_none, getD_none]
    · rw [if_neg changed] at above
      exact read _ low v inside (by rw [tableAt, tableAt, above])

theorem Tree.tables (low : k ≤ 3) (inside : v < 2 ^ 47) (here : tableAt m'.mem r v k = some f) :
    tableAt m.mem r v k = some f ∨
      (k = d + 1 ∧ Same k v virt ∧ tableOf w = some f ∧ f ∈ m.fa.avail ∧ f ∉ m'.fa.avail) := by
  cases k with
  | zero => exact .inl here
  | succ k =>
    rw [tableAt, tree.words edit k (by omega) v inside] at here
    split_ifs at here with changed
    · obtain ⟨rfl, way⟩ := changed
      rcases edit.next (by omega) with same | ⟨-, q, points, free, taken, -⟩
      · left
        rw [tableAt, way.wordAt, ← same, here]
      · cases points.symm.trans here
        exact .inr ⟨rfl, way, points, free, taken⟩
    · exact .inl here

theorem Tree.edited (wf : m'.fa.Wf) (sub : m'.fa.avail ⊆ m.fa.avail) (plain : Plain (3 - d) w) : Tree m' r := by
  have origin := fun {k v f} => tree.tables edit (k := k) (v := v) (f := f)
  refine ⟨wf, ?_, ?_, ?_⟩
  · intro a b v v' f low low' inside inside' here there
    rcases origin low inside here with here | ⟨rfl, way, -, free, -⟩
    · rcases origin low' inside' there with there | ⟨-, -, -, free, -⟩
      · exact tree.once low low' inside inside' here there
      · exact absurd free (tree.used low inside here)
    · rcases origin low' inside' there with there | ⟨rfl, way', -, -, -⟩
      · exact absurd free (tree.used low' inside' there)
      · exact ⟨rfl, way.trans way'.symm⟩
  · intro a v f low inside here
    rcases origin low inside here with here | ⟨-, -, -, -, taken⟩
    · exact fun no => tree.used low inside here (sub no)
    · exact taken
  · intro a v low inside
    rw [tree.words edit a low v inside]
    split_ifs with changed
    · exact changed.1 ▸ plain
    · exact tree.plain low inside

end

/-! ## Changes inside one space -/

/-- A change that takes frames for tables, if any, and writes nothing that is in use
    outside the tables of the user half, nor what it does not take. -/
structure Local (m m' : Machine) (r : Nat) : Prop where
  tree : Tree m' r
  grown : ∃ new, Grown m m' new
  tables : ∀ f, IsTable m' r f → IsTable m r f ∨ f ∈ m.fa.avail
  keep : ∀ f, f ∉ m.fa.avail → ¬ IsTable m r f → m'.mem f = m.mem f
  free : ∀ f ∈ m'.fa.avail, m'.mem f = m.mem f
  kernel : ∀ i, 256 ≤ i → m'.mem r i = m.mem r i

theorem Local.refl (tree : Tree m r) : Local m m r :=
  ⟨tree, ⟨[], .refl tree.wf⟩, fun _ => .inl, fun _ _ _ => rfl, fun _ _ => rfl, fun _ _ => rfl⟩

theorem Local.sub (change : Local m m' r) : m'.fa.avail ⊆ m.fa.avail := by
  obtain ⟨new, grown⟩ := change.grown
  exact grown.sub

theorem Local.trans (first : Local m m₁ r) (second : Local m₁ m' r) : Local m m' r := by
  obtain ⟨new, grown⟩ := first.grown
  obtain ⟨new', grown'⟩ := second.grown
  refine ⟨second.tree, ⟨new' ++ new, grown.trans grown'⟩, fun f table => ?_, fun f used outside => ?_,
    fun f free => (second.free f free).trans (first.free f (grown'.sub free)),
    fun i high => (second.kernel i high).trans (first.kernel i high)⟩
  · exact (second.tables f table).elim (first.tables f) fun free => .inr (grown.sub free)
  · rw [second.keep f (grown.keeps_used used) fun table => (first.tables f table).elim outside used,
      first.keep f used outside]

theorem Tree.localEdit (tree : Tree m r) (edit : EditAt m m' r virt d t w)
    (grown : Grown m m' new) (plain : Plain (3 - d) w) : Local m m' r := by
  have used := tree.used edit.deep edit.user edit.table
  refine ⟨tree.edited edit grown.wf grown.sub plain, ⟨new, grown⟩, ?_, ?_, ?_, ?_⟩
  · rintro f ⟨k, low, v, inside, here⟩
    rcases tree.tables edit low inside here with old | ⟨-, -, -, free, -⟩
    · exact .inl ⟨k, low, v, inside, old⟩
    · exact .inr free
  · intro f used outside
    refine edit.frame f used ?_
    rintro rfl
    exact outside ⟨d, edit.deep, virt, edit.user, edit.table⟩
  · intro f free
    exact edit.free f free fun same => used (grown.sub (same ▸ free))
  · intro i high
    by_cases root : t = r
    · subst root
      obtain ⟨rfl, -⟩ := tree.once edit.deep (Nat.zero_le 3) edit.user edit.user edit.table rfl
      exact edit.index i (by have := tableIndex_user edit.user; simp only [Nat.sub_zero]; omega)
    · rw [edit.frame r (tree.used (Nat.zero_le 3) edit.user rfl) (Ne.symm root)]

theorem Tree.setPage (tree : Tree m r) (user : virt < 2 ^ 47) (table : tableAt m.mem r virt 3 = some t)
    (plain : Plain 0 w) :
    Local m (m.setWord t (tableIndex 0 virt) w) r ∧
      (∀ d < 3, ∀ v < 2 ^ 47, wordAt (m.setWord t (tableIndex 0 virt) w).mem r v d = wordAt m.mem r v d) ∧
      ∀ v < 2 ^ 47, wordAt (m.setWord t (tableIndex 0 virt) w).mem r v 3 =
        if v / 4096 = virt / 4096 then w else wordAt m.mem r v 3 := by
  have edit : EditAt m (m.setWord t (tableIndex 0 virt) w) r virt 3 t w :=
    ⟨edit_setWord .., le_rfl, user, table, fun no => absurd no (lt_irrefl 3)⟩
  have words := tree.words edit
  refine ⟨tree.localEdit edit
    ((Grown.refl tree.wf).setWord _ _ _) plain, fun d low v inside => ?_, fun v inside => ?_⟩
  · rw [words d low.le v inside, if_neg (by omega)]
  · rw [words 3 le_rfl v inside]
    simp only [true_and, same_page_iff inside user]

/-! ## The walk of `map_to` -/

/-- The word of a table after a walk: as it was, with flags added, or that of a new table. -/
def Widens (flags w w' : Nat) : Prop :=
  w' = w ∨ w' = w ||| parentFlags flags ∨ w = 0 ∧ ∃ q, IsFrame q ∧ w' = q ||| parentFlags flags

theorem Widens.trans (first : Widens flags w w') (second : Widens flags w' w'') : Widens flags w w'' := by
  have twice : ∀ x, (x ||| parentFlags flags) ||| parentFlags flags = x ||| parentFlags flags :=
    fun x => by rw [Nat.or_assoc, Nat.or_self]
  rcases first with rfl | rfl | ⟨rfl, q, frame, rfl⟩
  · exact second
  · rcases second with rfl | rfl | ⟨zero, q, frame, rfl⟩
    · exact .inr (.inl rfl)
    · exact .inr (.inl (twice w))
    · exact .inr (.inr ⟨(or_eq_zero_iff.mp zero).1, q, frame, rfl⟩)
  · rcases second with rfl | rfl | ⟨-, q', frame', rfl⟩
    · exact .inr (.inr ⟨rfl, q, frame, rfl⟩)
    · exact .inr (.inr ⟨rfl, q, frame, twice q⟩)
    · exact .inr (.inr ⟨rfl, q', frame', rfl⟩)

/-- Tables have been added and flags of table words, and no page. -/
structure Widened (m m' : Machine) (r flags : Nat) : Prop extends Local m m' r where
  words : ∀ d < 3, ∀ v < 2 ^ 47, Widens flags (wordAt m.mem r v d) (wordAt m'.mem r v d)
  pages : ∀ v < 2 ^ 47, wordAt m'.mem r v 3 = wordAt m.mem r v 3

theorem Widened.refl (tree : Tree m r) : Widened m m r flags :=
  ⟨.refl tree, fun _ _ _ _ => .inl rfl, fun _ _ => rfl⟩

theorem Widened.trans (first : Widened m m₁ r flags) (second : Widened m₁ m' r flags) :
    Widened m m' r flags :=
  ⟨first.toLocal.trans second.toLocal,
    fun d low v inside => (first.words d low v inside).trans (second.words d low v inside),
    fun v inside => (second.pages v inside).trans (first.pages v inside)⟩

theorem Tree.widened (tree : Tree m r) (edit : EditAt m m' r virt d t w) (deep : d < 3)
    (grown : Grown m m' new) (plain : Plain (3 - d) w) (widens : Widens flags (wordAt m.mem r virt d) w) :
    Widened m m' r flags ∧ wordAt m'.mem r virt d = w := by
  have words := tree.words edit
  refine ⟨⟨tree.localEdit edit grown plain, ?_, ?_⟩, ?_⟩
  · intro k low v inside
    rw [words k low.le v inside]
    split_ifs with changed
    · obtain ⟨rfl, way⟩ := changed
      rw [way.wordAt]
      exact widens
    · exact .inl rfl
  · intro v inside
    rw [words 3 le_rfl v inside, if_neg (by omega)]
  · rw [words d deep.le virt edit.user, if_pos ⟨rfl, fun _ _ => rfl⟩]

/-- The word has all flags that a mapping gives to its tables. -/
def Includes (flags w : Nat) : Prop := w ||| parentFlags flags = w

theorem includes_or (flags w : Nat) : Includes flags (w ||| parentFlags flags) := by
  rw [Includes, Nat.or_assoc, Nat.or_self]

theorem Includes.widens (has : Includes flags w) (widens : Widens flags w w') : Includes flags w' := by
  rcases widens with rfl | rfl | ⟨-, q, -, rfl⟩
  · exact has
  · exact includes_or ..
  · exact includes_or ..

/-- The walk widens the words on the way and then sets the word of the page, unless it
    stops on the way. -/
theorem mapWalk_words (walk : MapWalk virt p flags l t m ok m') (good : PageFlags flags)
    (user : virt < 2 ^ 47) (level : l + d = 3) (tree : Tree m r) (table : tableAt m.mem r virt d = some t) :
    ∃ m₁, Widened m m₁ r flags ∧ (ok = false → m' = m₁) ∧
      (ok = true → (∀ k, d ≤ k → k < 3 → Includes flags (wordAt m₁.mem r virt k)) ∧
        wordAt m₁.mem r virt 3 = 0 ∧ ∃ c, tableAt m₁.mem r virt 3 = some c ∧
          m' = m₁.setWord c (tableIndex 0 virt) (p ||| flags)) := by
  induction walk generalizing d with
  | @mapped t m unused =>
    obtain rfl : d = 3 := by omega
    refine ⟨m, .refl tree, by simp, fun _ => ⟨fun k low high => by omega, ?_, t, table, rfl⟩⟩
    rw [wordAt_of_table table]
    exact unused
  | @taken t m used => exact ⟨m, .refl tree, fun _ => rfl, by simp⟩
  | @exhausted l t m m₁ unused empty =>
    obtain rfl := allocFrame_none empty
    exact ⟨m₁, .refl tree, fun _ => rfl, by simp⟩
  | @created l t q m m₁ m' ok unused fresh rest ih =>
    have deep : d < 3 := by omega
    have index : l + 1 = 3 - d := by omega
    have got := allocFrame_some tree.wf fresh
    have linked : Grown m (m₁.link t (tableIndex (l + 1) virt) q flags) [q] :=
      (got.grown.setWord _ _ _).setFrame _ _
    have zero : wordAt m.mem r virt d = 0 := by rw [wordAt_of_table table, ← index, unused]
    obtain ⟨word, words⟩ := got.link_table (tableIndex (l + 1) virt) flags (tree.used deep.le user table)
    have edit : Edit m (m₁.link t (tableIndex (l + 1) virt) q flags) t (tableIndex (3 - d) virt)
        (q ||| parentFlags flags) := by
      rw [← index]
      refine ⟨word, words, fun f used other => got.link_mem used other, fun f free other => ?_⟩
      have notNew : f ≠ q := fun same => (got.sub free).2 same
      rw [link, zeroFrame, setFrame_frame notNew, setWord_frame other, got.store]
    have points := tableOf_link got.frame good
    have taken := (linked.fresh q (List.mem_singleton_self q)).2
    obtain ⟨first, here⟩ := tree.widened ⟨edit, deep.le, user, table, fun _ =>
      .inr ⟨zero, q, points, got.mem, taken, fun j => link_zero ..⟩⟩ deep linked (plain_link got.frame good)
      (.inr (.inr ⟨zero, q, got.frame, rfl⟩))
    obtain ⟨m₂, second, failed, done⟩ :=
      ih (d := d + 1) (by omega) first.tree (by rw [tableAt, ← link, here, points])
    refine ⟨m₂, first.trans second, failed, fun ok => ⟨fun k low high => ?_, (done ok).2⟩⟩
    rcases eq_or_lt_of_le low with rfl | below
    · refine Includes.widens ?_ (second.words d deep virt user)
      rw [← link, here]
      exact includes_or ..
    · exact (done ok).1 k below high
  | @huge l t m used big =>
    have plain := tree.plain (d := d) (by omega) user
    rw [wordAt_of_table table, show 3 - d = l + 1 by omega] at plain
    exact absurd (plain.table used).2 big
  | @followed l t m m' ok used small rest ih =>
    have deep : d < 3 := by omega
    have index : 3 - d = l + 1 := by omega
    have word : wordAt m.mem r virt d = m.mem t (tableIndex (l + 1) virt) := by
      rw [wordAt_of_table table, index]
    have plain := tree.plain deep.le user
    rw [word, index] at plain
    obtain ⟨present, -⟩ := plain.table used
    have present' : (m.mem t (tableIndex (l + 1) virt) ||| parentFlags flags) &&& PRESENT ≠ 0 :=
      and_or_ne_zero _ present
    have points : tableOf (m.mem t (tableIndex (l + 1) virt) ||| parentFlags flags) =
        tableOf (m.mem t (tableIndex (l + 1) virt)) := by
      rw [tableOf_some present', tableOf_some present, frameAddr_or_parentFlags]
    have edit : Edit m (m.setWord t (tableIndex (l + 1) virt) (m.mem t (tableIndex (l + 1) virt) ||| parentFlags flags))
        t (tableIndex (3 - d) virt) (m.mem t (tableIndex (l + 1) virt) ||| parentFlags flags) := by
      rw [index]
      exact edit_setWord ..
    obtain ⟨first, here⟩ := tree.widened
      ⟨edit, deep.le, user, table, fun _ => .inl (by rw [word, points])⟩ deep ((Grown.refl tree.wf).setWord _ _ _)
      (.inr ⟨present', fun _ => by rw [huge_or_parentFlags, small]⟩) (.inr (.inl (by rw [word])))
    obtain ⟨m₂, second, failed, done⟩ := ih (d := d + 1) (by omega) first.tree
      (by rw [tableAt, here, points, tableOf_some present])
    refine ⟨m₂, first.trans second, failed, fun ok => ⟨fun k low high => ?_, (done ok).2⟩⟩
    rcases eq_or_lt_of_le low with rfl | below
    · refine Includes.widens ?_ (second.words d deep virt user)
      rw [here]
      exact includes_or ..
    · exact (done ok).1 k below high

/-- The effect of mapping a page on the words of every address. -/
structure Mapped (m m' : Machine) (r virt p flags : Nat) (ok : Bool) : Prop extends Local m m' r where
  words : ∀ d < 3, ∀ v < 2 ^ 47, Widens flags (wordAt m.mem r v d) (wordAt m'.mem r v d)
  pages : ∀ v < 2 ^ 47, wordAt m'.mem r v 3 =
    if ok = true ∧ v / 4096 = virt / 4096 then p ||| flags else wordAt m.mem r v 3
  vacant : ok = true → wordAt m.mem r virt 3 = 0
  includes : ok = true → ∀ d < 3, Includes flags (wordAt m'.mem r virt d)

variable (tree : Tree m r)

include tree

theorem Tree.mapped (walk : MapWalk virt p flags 3 r m ok m') (good : PageFlags flags)
    (user : virt < 2 ^ 47) : Mapped m m' r virt p flags ok := by
  obtain ⟨m₁, widened, failed, done⟩ := mapWalk_words walk good user (d := 0) rfl tree rfl
  cases ok with
  | false =>
    cases failed rfl
    refine ⟨widened.toLocal, widened.words, fun v inside => ?_, fun no => Bool.noConfusion no,
      fun no => Bool.noConfusion no⟩
    rw [if_neg fun no => Bool.noConfusion no.1, widened.pages v inside]
  | true =>
    obtain ⟨includes, vacant, c, table, rfl⟩ := done rfl
    obtain ⟨last, tables, pages⟩ := widened.tree.setPage user table
      (.inr ⟨present_page p good, fun no => absurd no (lt_irrefl 0)⟩)
    refine ⟨widened.toLocal.trans last, fun d low v inside => ?_, fun v inside => ?_,
      fun _ => (widened.pages virt user).symm.trans vacant, fun _ d low => ?_⟩
    · rw [tables d low v inside]
      exact widened.words d low v inside
    · rw [pages v inside, ← widened.pages v inside]
      simp only [true_and]
    · rw [tables d low virt user]
      exact includes d (Nat.zero_le d) low

/-! ## The word of a page -/

theorem Tree.absent_iff (deep : d ≤ 3) (user : v < 2 ^ 47) :
    wordAt m.mem r v d &&& PRESENT = 0 ↔ wordAt m.mem r v d = 0 := by
  constructor
  · intro absent
    exact (tree.plain deep user).resolve_right fun both => both.1 absent
  · intro zero
    rw [zero, zero_and]

theorem Tree.walk {α : Type} (user : virt < 2 ^ 47) (walk : Nat → Nat → Option α) (found : Nat → Nat → α)
    (page : ∀ t, walk 0 t = if m.mem t (tableIndex 0 virt) &&& PRESENT = 0 then none
      else some (found t (m.mem t (tableIndex 0 virt))))
    (absent : ∀ l t, m.mem t (tableIndex (l + 1) virt) &&& PRESENT = 0 → walk (l + 1) t = none)
    (table : ∀ l t, m.mem t (tableIndex (l + 1) virt) &&& PRESENT ≠ 0 →
      m.mem t (tableIndex (l + 1) virt) &&& HUGE_PAGE = 0 →
      walk (l + 1) t = walk l (frameAddr (m.mem t (tableIndex (l + 1) virt)))) :
    walk 3 r = if wordAt m.mem r virt 3 = 0 then none
      else (tableAt m.mem r virt 3).map fun t => found t (wordAt m.mem r virt 3) := by
  have below : ∀ l d t, l + d = 3 → tableAt m.mem r virt d = some t →
      walk l t = if wordAt m.mem r virt 3 = 0 then none
        else (tableAt m.mem r virt 3).map fun t => found t (wordAt m.mem r virt 3) := by
    intro l
    induction l with
    | zero =>
      intro d t level here
      obtain rfl : d = 3 := by omega
      have word : wordAt m.mem r virt 3 = m.mem t (tableIndex 0 virt) := wordAt_of_table here
      rw [page, ← word, here, map_some]
      simp only [tree.absent_iff le_rfl user]
    | succ l ih =>
      intro d t level here
      have word := wordAt_of_table here
      rw [show 3 - d = l + 1 by omega] at word
      by_cases zero : wordAt m.mem r virt d = 0
      · rw [absent l t (by rw [← word, zero, zero_and]), if_pos (wordAt_ended zero (by omega))]
      · have plain := tree.plain (d := d) (by omega) user
        rw [show 3 - d = l + 1 by omega] at plain
        obtain ⟨present, small⟩ := plain.table zero
        rw [table l t (word ▸ present) (word ▸ small), ← word]
        exact ih (d + 1) _ (by omega) (tableOf_some present)
  exact below 3 0 r rfl rfl

theorem Tree.leafSlot (user : virt < 2 ^ 47) :
    (wordAt m.mem r virt 3 = 0 ∧ leafSlot m.mem virt 3 r = none) ∨
      ∃ t, wordAt m.mem r virt 3 ≠ 0 ∧ tableAt m.mem r virt 3 = some t ∧
        leafSlot m.mem virt 3 r = some (t, tableIndex 0 virt, wordAt m.mem r virt 3) := by
  have walk := tree.walk user (Machine.leafSlot m.mem virt) (fun t e => (t, tableIndex 0 virt, e))
    (fun _ => rfl) (fun _ _ absent => if_pos absent) fun _ _ present _ => if_neg present
  by_cases zero : wordAt m.mem r virt 3 = 0
  · exact .inl ⟨zero, walk.trans (if_pos zero)⟩
  · obtain ⟨t, table⟩ := ne_none_iff_exists'.mp fun outside => zero (wordAt_of_none outside)
    exact .inr ⟨t, zero, table, by rw [walk, if_neg zero, table, map_some]⟩

omit tree

theorem Tree.virtToPhysRaw (tree : Tree m (pageBase cr3)) (user : virt < 2 ^ 47) :
    m.virtToPhysRaw cr3 virt = if wordAt m.mem (pageBase cr3) virt 3 = 0 then none
      else some (frameAddr (wordAt m.mem (pageBase cr3) virt 3) ||| (virt &&& 0xFFF)) := by
  have walk := tree.walk user (virtWalk m.mem virt) (fun _ e => frameAddr e ||| (virt &&& 0xFFF))
    (fun _ => rfl) (fun _ _ absent => if_pos absent)
    fun _ _ present small => (if_neg present).trans (if_neg (not_not.mpr small))
  rw [Machine.virtToPhysRaw, walk]
  split_ifs with zero
  · rfl
  · cases table : tableAt m.mem (pageBase cr3) virt 3 with
    | none => exact absurd (wordAt_of_none table) zero
    | some t => rfl

include tree

theorem Tree.walkPath (user : virt < 2 ^ 47) (here : wordAt m.mem r virt 3 ≠ 0) :
    walkPath m.mem virt 3 r = some
      ([wordAt m.mem r virt 0, wordAt m.mem r virt 1, wordAt m.mem r virt 2], wordAt m.mem r virt 3) := by
  have word : ∀ d < 3, tableOf (wordAt m.mem r virt d) = some (frameAddr (wordAt m.mem r virt d)) ∧
      wordAt m.mem r virt d &&& PRESENT ≠ 0 ∧ wordAt m.mem r virt d &&& HUGE_PAGE = 0 := by
    intro d low
    have plain := tree.plain low.le user
    rw [show 3 - d = (2 - d) + 1 by omega] at plain
    obtain ⟨present, small⟩ := plain.table fun zero => here (wordAt_ended zero low.le)
    exact ⟨tableOf_some present, present, small⟩
  have next : ∀ d < 3, m.mem (frameAddr (wordAt m.mem r virt d)) (tableIndex (2 - d) virt) =
      wordAt m.mem r virt (d + 1) := by
    intro d low
    rw [wordAt, (word d low).1, map_some, getD_some]
  have top : m.mem r (tableIndex 3 virt) = wordAt m.mem r virt 0 := rfl
  have last : wordAt m.mem r virt 3 &&& PRESENT ≠ 0 :=
    fun absent => here ((tree.absent_iff le_rfl user).mp absent)
  simp only [Machine.walkPath, top, next 0 (by decide), next 1 (by decide), next 2 (by decide),
    word 0 (by decide), word 1 (by decide), word 2 (by decide), last, if_false, ne_eq,
    not_true_eq_false, map_some]

theorem Tree.walkPath_none (user : virt < 2 ^ 47) (zero : wordAt m.mem r virt 3 = 0) :
    Machine.walkPath m.mem virt 3 r = none := by
  have none := tree.walk user (fun l t => (Machine.walkPath m.mem virt l t).map Prod.snd)
    (fun _ e => e) (fun t => ?_) (fun l t absent => ?_) (fun l t present small => ?_)
  · rw [if_pos zero] at none
    exact map_eq_none_iff.mp none
  · simp only [Machine.walkPath]
    split_ifs <;> rfl
  · simp only [Machine.walkPath, if_pos absent, map_none]
  · simp only [Machine.walkPath, if_neg present, small, ne_eq, not_true_eq_false, if_false, map_map]
    rfl

theorem Tree.freed (small : p < 2 ^ 52) (used : p ∉ m.fa.avail) (other : ¬ IsTable m r p) :
    Tree { m with fa := m.fa.freeFrame p } r := by
  obtain ⟨wf, only⟩ := tree.wf.freeFrame small used
  refine ⟨wf, tree.once, fun {d v f} deep user table free => ?_, tree.plain⟩
  rcases only free with rfl | free
  · exact other ⟨d, deep, v, user, table⟩
  · exact tree.used deep user table free

theorem Tree.allocated (got : m.Allocated p m') : Tree m' r := by
  refine ⟨got.wf, ?_, ?_, ?_⟩
  · rw [got.store]
    exact tree.once
  · rw [got.store]
    exact fun deep user table free => tree.used deep user table (got.sub free).1
  · rw [got.store]
    exact tree.plain

end Zenus.Mem.Machine
