import Zenus.Fs.Mount
import Zenus.Lib.Run

/-! # Mounting and unmounting over histories

Between mounts at the same point the first one wins, because a later one is only
taken when its prefix is strictly longer, and `umount` removes the oldest one.  So
a mount takes effect exactly where nothing is mounted yet.  A namespace without a
table of its own mounts into the root's.
-/

namespace Zenus.Fs

open MountTable Lib.Best Lib.Run List Option

section Paths

variable {mount path p q : Str}

def Normal (mount : Str) : Prop := mount = [SLASH] ∨ (mount.head? = some SLASH ∧ trimEnd mount = mount)

def AtOrBelow (mount path : Str) : Prop :=
  if mount = [SLASH] then path.head? = some SLASH else path = mount ∨ mount ++ [SLASH] <+: path

instance (mount path : Str) : Decidable (AtOrBelow mount path) :=
  inferInstanceAs (Decidable (if mount = [SLASH] then _ else _))

theorem trimEnd_trimEnd (path : Str) : trimEnd (trimEnd path) = trimEnd path :=
  rdropWhile_idempotent _ _

theorem Normal.ne_nil (normal : Normal mount) : mount ≠ [] := by
  rintro rfl
  cases normal with
  | inl root => simp at root
  | inr rest => exact absurd rest.1 (by simp)

theorem normal_normalise (path : Str) : Normal (normaliseMountPath path) := by
  unfold normaliseMountPath
  by_cases empty : (trimEnd path).isEmpty = true
  · rw [if_pos empty]
    exact .inl rfl
  · rw [if_neg empty]
    by_cases absolute : ((trimEnd path).head? == some SLASH) = true
    · rw [if_pos absolute]
      exact .inr ⟨by simpa using absolute, trimEnd_trimEnd path⟩
    · rw [if_neg absolute]
      refine .inr ⟨rfl, ?_⟩
      have nonempty : trimEnd path ≠ [] := by simpa using empty
      have last := rdropWhile_eq_self_iff.mp (trimEnd_trimEnd path) nonempty
      refine rdropWhile_eq_self_iff.mpr fun _ => ?_
      rwa [getLast_cons nonempty]

theorem Normal.trimEnd_eq (normal : Normal mount) (below : mount ≠ [SLASH]) :
    trimEnd mount = mount :=
  (normal.resolve_left below).2

theorem mountCovers_iff (normal : Normal mount) : mountCovers path mount = true ↔ AtOrBelow mount path := by
  unfold mountCovers AtOrBelow
  by_cases root : mount = [SLASH]
  · rw [if_pos root, if_pos (by simp [root])]
    exact beq_iff_eq
  · have nonempty := normal.ne_nil
    rw [if_neg root, if_neg (by simpa using ⟨root, nonempty⟩), normal.trimEnd_eq root,
      if_neg (by simpa using nonempty)]
    by_cases pre : mount <+: path
    · obtain ⟨rest, rfl⟩ := pre
      have starts : mount.isPrefixOf (mount ++ rest) = true :=
        isPrefixOf_iff_prefix.mpr (prefix_append mount rest)
      have next : (mount ++ rest)[mount.length]? = rest.head? := by
        rw [getElem?_append_right (Nat.le_refl _), Nat.sub_self, head?_eq_getElem?]
      rw [if_neg (by rw [starts]; simp), next, prefix_append_right_inj]
      cases rest with
      | nil => simp
      | cons b rest =>
        have longer : mount ++ b :: rest ≠ mount := by simp
        show (b == SLASH) = true ↔ _
        rw [beq_iff_eq, or_iff_right longer]
        constructor
        · rintro rfl
          exact ⟨rest, rfl⟩
        · rintro ⟨_, same⟩
          exact (List.cons.inj same).1.symm
    · have differs : mount.isPrefixOf path = false :=
        Bool.eq_false_iff.mpr (mt isPrefixOf_iff_prefix.mp pre)
      rw [if_pos (by rw [differs]; rfl)]
      refine iff_of_false (by simp) ?_
      rintro (rfl | longer)
      · exact pre (prefix_refl _)
      · exact pre ((prefix_append _ _).trans longer)

theorem AtOrBelow.isPrefix (below : AtOrBelow mount path) : mount <+: path := by
  unfold AtOrBelow at below
  split at below
  · next root =>
    obtain ⟨b, rest, rfl⟩ := ne_nil_iff_exists_cons.mp (fun none : path = [] => by simp [none] at below)
    obtain rfl : b = SLASH := by simpa using below
    rw [root]
    exact ⟨rest, rfl⟩
  · rcases below with rfl | longer
    · exact prefix_refl _
    · exact (prefix_append _ _).trans longer

theorem atOrBelow_self (mount : Str) : AtOrBelow mount mount := by
  unfold AtOrBelow
  split
  · next root => rw [root]; rfl
  · exact .inl rfl

theorem mountPrefixLen_eq (normal : Normal mount) :
    mountPrefixLen path mount = if AtOrBelow mount path then mount.length else 0 := by
  unfold mountPrefixLen
  rw [if_congr (mountCovers_iff normal) rfl rfl]
  by_cases root : mount = [SLASH]
  · simp [root]
  · have inner : ¬ (mount == [SLASH] || mount.isEmpty) = true := by
      simpa using ⟨root, normal.ne_nil⟩
    rw [if_neg inner, normal.trimEnd_eq root]

theorem AtOrBelow.unique (belowP : AtOrBelow p path) (belowQ : AtOrBelow q path)
    (lengths : p.length = q.length) : p = q :=
  (prefix_of_prefix_length_le belowP.isPrefix belowQ.isPrefix
    (Nat.le_of_eq lengths)).eq_of_length lengths

section Selection

variable {α : Type} {key : α → Str} {xs : List α} {x : α} (normals : ∀ x ∈ xs, Normal (key x))

include normals

theorem pick_longest (picked : pick (fun x => mountPrefixLen path (key x)) xs = some x) :
    AtOrBelow (key x) path ∧ ∀ y ∈ xs, AtOrBelow (key y) path → (key y).length ≤ (key x).length := by
  obtain ⟨mem, heaviest, pos⟩ := pick_some picked
  rw [mountPrefixLen_eq (normals x mem)] at heaviest pos
  have below : AtOrBelow (key x) path := by
    by_contra not
    simp [not] at pos
  refine ⟨below, fun y inside under => ?_⟩
  have heavy := le_top (fun x => mountPrefixLen path (key x)) inside
  rwa [mountPrefixLen_eq (normals y inside), if_pos under, ← heaviest, if_pos below] at heavy

theorem pick_covered (mem : x ∈ xs) (under : AtOrBelow (key x) path) :
    ∃ y, pick (fun x => mountPrefixLen path (key x)) xs = some y := by
  refine pick_isSome (Nat.lt_of_lt_of_le ?_ (le_top _ mem))
  rw [mountPrefixLen_eq (normals x mem), if_pos under]
  exact length_pos_iff.mpr (normals x mem).ne_nil

end Selection

/-- What `umount` compares with. -/
def umountTarget (path : Str) : Str := if (trimEnd path).isEmpty then [SLASH] else trimEnd path

theorem eq_of_pathsEqual (normal : Normal mount) (equal : pathsEqual mount (umountTarget path) = true) :
    mount = normaliseMountPath path := by
  have same : trimEnd mount = trimEnd (umountTarget path) := by
    unfold pathsEqual at equal
    dsimp only at equal
    split at equal
    · next empty =>
      rw [Bool.and_eq_true, List.isEmpty_iff, List.isEmpty_iff] at empty
      rw [empty.1, empty.2]
    · exact beq_iff_eq.mp equal
  have trimmedRoot : trimEnd [SLASH] = [] := rfl
  unfold umountTarget at same
  unfold normaliseMountPath
  by_cases empty : (trimEnd path).isEmpty = true
  · rw [if_pos empty, trimmedRoot] at same
    rw [if_pos empty]
    refine normal.resolve_right fun rest => ?_
    rw [rest.2] at same
    exact normal.ne_nil same
  · rw [if_neg empty, trimEnd_trimEnd] at same
    rw [if_neg empty]
    by_cases root : mount = [SLASH]
    · rw [root, trimmedRoot] at same
      exact absurd same.symm (by simpa using empty)
    · rw [normal.trimEnd_eq root] at same
      rw [← same, if_pos (by simp [(normal.resolve_left root).1])]

end Paths

namespace MountTable

variable {F : Type} {table table' : MountTable F} {mount : Mount F} {path p : Str}

/-- Every mount point is stored in its canonical form. -/
def AllNormal (table : MountTable F) : Prop := ∀ e ∈ table, Normal e.path

/-- Nothing is mounted at `p`. -/
def Fresh (table : MountTable F) (p : Str) : Prop := ∀ e ∈ table, e.path ≠ p

instance (table : MountTable F) (p : Str) : Decidable (table.Fresh p) :=
  inferInstanceAs (Decidable (∀ e ∈ table, e.path ≠ p))

theorem find_append (normals : table.AllNormal) (normal : Normal mount.path)
    (fresh : table.Fresh mount.path) (below : AtOrBelow mount.path path)
    (longest : ∀ e ∈ table, AtOrBelow e.path path → e.path.length ≤ mount.path.length) :
    find (table ++ [mount]) path = some mount := by
  have weight : mountPrefixLen path mount.path = mount.path.length := by
    rw [mountPrefixLen_eq normal, if_pos below]
  have pos : 0 < mount.path.length := length_pos_iff.mpr normal.ne_nil
  rw [find, pick_append, if_pos]
  rw [weight, top_lt_iff pos]
  intro e mem
  rw [mountPrefixLen_eq (normals e mem)]
  by_cases under : AtOrBelow e.path path
  · rw [if_pos under]
    refine Nat.lt_of_le_of_ne (longest e mem under) fun same => fresh e mem ?_
    exact under.unique below same
  · rw [if_neg under]
    exact pos

theorem find_append_used (used : ¬ table.Fresh mount.path) (path : Str) :
    find (table ++ [mount]) path = table.find path := by
  simp only [Fresh, not_forall, not_not] at used
  obtain ⟨e, mem, same⟩ := used
  rw [find, pick_append, if_neg, find]
  have weight := le_top (fun m => mountPrefixLen path m.path) mem
  rw [same] at weight
  exact Nat.not_lt_of_le weight

theorem find_used (normals : table.AllNormal) (used : ¬ table.Fresh p) : ∃ e, table.find p = some e := by
  simp only [Fresh, not_forall, not_not] at used
  obtain ⟨e, mem, same⟩ := used
  exact pick_covered normals mem (same ▸ atOrBelow_self e.path)

theorem remove_append (normals : table.AllNormal) (fresh : table.Fresh (normaliseMountPath p))
    (removed : remove (table ++ [mount]) (umountTarget p) = some table') : table' = table := by
  cases table with
  | nil => simp [remove] at removed
  | cons first rest =>
    have clear : ∀ e ∈ rest, ¬ pathsEqual e.path (umountTarget p) = true := fun e mem equal =>
      fresh e (.tail _ mem)
        (eq_of_pathsEqual (normals e (.tail _ mem)) equal)
    rw [cons_append, remove] at removed
    split at removed
    · next some =>
      cases removed
      obtain ⟨e, mem, equal⟩ := any_eq_true.mp some
      have last : pathsEqual mount.path (umountTarget p) = true := by
        rcases mem_append.mp mem with old | new
        · exact absurd equal (clear e old)
        · rwa [mem_singleton.mp new] at equal
      rw [eraseP_append_right _ clear]
      simp [last]
    · simp at removed

end MountTable

namespace MountTables

variable {F : Type} {m m' : MountTables F} {nsId other : Nat} {new : MountTable F} {path target : Str}

def Own (m : MountTables F) (nsId : Nat) : Prop :=
  nsId = NS_ROOT ∨ (m.spaces.find? fun entry => entry.nsId == nsId).isSome

instance (m : MountTables F) (nsId : Nat) : Decidable (m.Own nsId) :=
  inferInstanceAs (Decidable (_ ∨ _))

def table (m : MountTables F) (nsId : Nat) : MountTable F :=
  if nsId = NS_ROOT then m.root
  else
    match m.spaces.find? fun entry => entry.nsId == nsId with
    | some entry => entry.table
    | none => m.root

theorem findMountInTable_eq : m.findMountInTable nsId path = (m.table nsId).find path := by
  unfold findMountInTable table
  split
  · rfl
  · cases m.spaces.find? fun entry => entry.nsId == nsId with
    | none => rfl
    | some entry => rfl

def replaceSpace (nsId : Nat) (new : MountTable F) : List (MntNsEntry F) → List (MntNsEntry F)
  | [] => []
  | entry :: rest =>
    if entry.nsId = nsId then { entry with table := new } :: rest
    else entry :: replaceSpace nsId new rest

theorem editSpace_eq (edit : MountTable F → Option (MountTable F)) (spaces : List (MntNsEntry F)) :
    editSpace nsId edit spaces = (spaces.find? fun entry => entry.nsId == nsId).map fun entry =>
      (edit entry.table).map fun new => replaceSpace nsId new spaces := by
  induction spaces with
  | nil => rfl
  | cons first rest ih =>
    rw [editSpace, find?_cons]
    by_cases here : first.nsId = nsId
    · simp [here, replaceSpace]
    · simp only [here, beq_eq_false_iff_ne.mpr here, if_false, ih, replaceSpace]
      cases rest.find? fun entry => entry.nsId == nsId with
      | none => rfl
      | some entry =>
        simp only [Option.map_some, Option.map_map]
        rfl

theorem find_replaceSpace (spaces : List (MntNsEntry F)) :
    ((replaceSpace nsId new spaces).find? fun entry => entry.nsId == other) =
      (spaces.find? fun entry => entry.nsId == other).map fun entry =>
        if other = nsId then { entry with table := new } else entry := by
  induction spaces with
  | nil => rfl
  | cons first rest ih =>
    rw [replaceSpace]
    by_cases here : first.nsId = nsId
    · rw [if_pos here, find?_cons, find?_cons]
      by_cases mine : other = nsId
      · simp [here, mine]
      · have apart : (first.nsId == other) = false :=
          beq_eq_false_iff_ne.mpr fun same => mine (same.symm.trans here)
        simp only [apart, if_neg mine, Option.map_id']
    · rw [if_neg here, find?_cons, find?_cons, ih]
      by_cases mine : first.nsId = other
      · have apart : other ≠ nsId := fun same => here (mine.trans same)
        simp [mine, apart]
      · simp only [beq_eq_false_iff_ne.mpr mine]

/-- Store a table where the namespace reads its own from. -/
def setTable (m : MountTables F) (nsId : Nat) (new : MountTable F) : MountTables F :=
  if nsId ≠ NS_ROOT ∧ (m.spaces.find? fun entry => entry.nsId == nsId).isSome then
    { m with spaces := replaceSpace nsId new m.spaces }
  else { m with root := new }

theorem table_setTable : (m.setTable nsId new).table nsId = new := by
  unfold setTable
  split
  · next mine =>
    obtain ⟨entry, found⟩ := isSome_iff_exists.mp mine.2
    simp [table, mine.1, find_replaceSpace, found]
  · next fallback =>
    unfold table
    split
    · rfl
    · next inner =>
      have absent : (m.spaces.find? fun entry => entry.nsId == nsId) = none := by
        rw [← not_isSome_iff_eq_none]
        exact fun found => fallback ⟨inner, found⟩
      simp only [absent]

/-- Another namespace keeps its table, unless it is the root's and the edit fell
    back to that. -/
theorem table_setTable_other (apart : other ≠ nsId) (own : m.Own other)
    (mine : m.Own nsId ∨ other ≠ NS_ROOT) : (m.setTable nsId new).table other = m.table other := by
  unfold setTable
  split
  · unfold table
    split
    · rfl
    · simp only [find_replaceSpace, if_neg apart, Option.map_id']
  · next fallback =>
    have inner : other ≠ NS_ROOT := by
      rintro rfl
      rcases mine with (root | found) | inner
      · exact apart root.symm
      · exact fallback ⟨apart.symm, found⟩
      · exact inner rfl
    obtain ⟨entry, found⟩ := isSome_iff_exists.mp (own.resolve_left inner)
    simp [table, inner, found]

theorem table_root (root : nsId = NS_ROOT) : m.table nsId = m.root := if_pos root

theorem setTable_root (root : nsId = NS_ROOT) : m.setTable nsId new = { m with root := new } :=
  if_neg fun inner => inner.1 root

section Lookup

variable {entry : MntNsEntry F} (inner : nsId ≠ NS_ROOT)

include inner

theorem table_inner (found : (m.spaces.find? fun entry => entry.nsId == nsId) = some entry) :
    m.table nsId = entry.table := by
  simp [table, inner, found]

theorem table_fallback (absent : (m.spaces.find? fun entry => entry.nsId == nsId) = none) :
    m.table nsId = m.root := by
  simp [table, inner, absent]

theorem setTable_inner (found : (m.spaces.find? fun entry => entry.nsId == nsId) = some entry) :
    m.setTable nsId new = { m with spaces := replaceSpace nsId new m.spaces } := by
  simp [setTable, inner, found]

end Lookup

theorem setTable_fallback (absent : (m.spaces.find? fun entry => entry.nsId == nsId) = none) :
    m.setTable nsId new = { m with root := new } := by
  simp [setTable, absent]

theorem mountInNsInner_eq (fs : F) (flags : Nat) :
    m.mountInNsInner nsId path fs flags =
      match (m.table nsId).append ⟨normaliseMountPath path, fs, flags⟩ with
      | none => (false, m)
      | some new => (true, m.setTable nsId new) := by
  unfold mountInNsInner
  by_cases root : nsId = NS_ROOT
  · rw [if_neg (not_not.mpr root), table_root root]
    cases m.root.append ⟨normaliseMountPath path, fs, flags⟩ with
    | none => rfl
    | some new => simp only [setTable_root root]
  · rw [if_pos root, editSpace_eq]
    cases found : m.spaces.find? fun entry => entry.nsId == nsId with
    | none =>
      rw [table_fallback root found, map_none]
      cases m.root.append ⟨normaliseMountPath path, fs, flags⟩ with
      | none => rfl
      | some new => simp only [setTable_fallback found]
    | some entry =>
      rw [table_inner root found, map_some]
      cases entry.table.append ⟨normaliseMountPath path, fs, flags⟩ with
      | none => rfl
      | some new => simp only [map_some, setTable_inner root found]

theorem umountInNs_eq :
    m.umountInNs nsId path = if m.Own nsId then
        match (m.table nsId).remove (umountTarget path) with
        | none => (false, m)
        | some new => (true, m.setTable nsId new)
      else (false, m) := by
  unfold umountInNs
  rw [← umountTarget]
  by_cases root : nsId = NS_ROOT
  · rw [if_pos root, if_pos (.inl root), table_root root]
    cases m.root.remove (umountTarget path) with
    | none => rfl
    | some new => simp only [setTable_root root]
  · rw [if_neg root, editSpace_eq]
    cases found : m.spaces.find? fun entry => entry.nsId == nsId with
    | none =>
      rw [if_neg (by simp [Own, root, found])]
      rfl
    | some entry =>
      rw [if_pos (.inr (by simp [found])), table_inner root found, map_some]
      cases entry.table.remove (umountTarget path) with
      | none => rfl
      | some new => simp only [map_some, setTable_inner root found]

/-- A property of every table. -/
structure All (prop : MountTable F → Prop) (m : MountTables F) : Prop where
  root : prop m.root
  spaces : ∀ entry ∈ m.spaces, prop entry.table

section All

variable {prop : MountTable F → Prop}

theorem All.table (all : m.All prop) (nsId : Nat) : prop (m.table nsId) := by
  unfold MountTables.table
  split
  · exact all.root
  · split
    · next entry found => exact all.spaces entry (mem_of_find?_eq_some found)
    · exact all.root

theorem mem_replaceSpace {spaces : List (MntNsEntry F)} {entry : MntNsEntry F}
    (mem : entry ∈ replaceSpace nsId new spaces) : entry ∈ spaces ∨ entry.table = new := by
  induction spaces with
  | nil => simp [replaceSpace] at mem
  | cons first rest ih =>
    rw [replaceSpace] at mem
    split at mem
    · cases mem_cons.mp mem with
      | inl edited => exact .inr (edited ▸ rfl)
      | inr old => exact .inl (.tail _ old)
    · cases mem_cons.mp mem with
      | inl same => exact .inl (same ▸ mem_cons_self)
      | inr later => exact (ih later).imp_left (mem_cons_of_mem _)

theorem All.setTable (all : m.All prop) (holds : prop new) : (m.setTable nsId new).All prop := by
  unfold MountTables.setTable
  split
  · refine ⟨all.root, fun entry mem => ?_⟩
    cases mem_replaceSpace mem with
    | inl old => exact all.spaces entry old
    | inr edited => exact edited ▸ holds
  · exact ⟨holds, all.spaces⟩

end All

/-- The calls of a history. -/
inductive Call (F : Type) where
  | mount (nsId : Nat) (path : Str) (fs : F) (flags : Nat)
  | umount (nsId : Nat) (path : Str)
  | createMntNs (nsId : Nat)

def step (m : MountTables F) : Call F → Option (MountTables F)
  | .mount nsId path fs flags => some (m.mountInNsInner nsId path fs flags).2
  | .umount nsId path => some (m.umountInNs nsId path).2
  | .createMntNs nsId => some (m.createMntNs nsId).2

/-- What holds of every table, and is kept by one more mount and by one less, is kept by
    every call. -/
theorem step_all {prop : MountTable F → Prop} (append : ∀ old path fs flags new, prop old →
      append old ⟨normaliseMountPath path, fs, flags⟩ = some new → prop new)
    (remove : ∀ old target new, prop old → remove old target = some new → prop new)
    (m : MountTables F) (call : Call F) (m' : MountTables F) (all : m.All prop)
    (stepped : step m call = some m') : m'.All prop := by
  cases call with
  | mount nsId path fs flags =>
    obtain rfl : (m.mountInNsInner nsId path fs flags).2 = m' := some.inj stepped
    rw [mountInNsInner_eq]
    cases done : (m.table nsId).append ⟨normaliseMountPath path, fs, flags⟩ with
    | none => exact all
    | some new => exact all.setTable (append _ _ _ _ _ (all.table nsId) done)
  | umount nsId path =>
    obtain rfl : (m.umountInNs nsId path).2 = m' := some.inj stepped
    rw [umountInNs_eq]
    split
    · cases done : (m.table nsId).remove (umountTarget path) with
      | none => exact all
      | some new => exact all.setTable (remove _ _ _ (all.table nsId) done)
    · exact all
  | createMntNs nsId =>
    obtain rfl : (m.createMntNs nsId).2 = m' := some.inj stepped
    unfold createMntNs
    split
    · exact all
    · refine ⟨all.root, fun entry mem => ?_⟩
      cases mem_append.mp mem with
      | inl old => exact all.spaces entry old
      | inr created => exact mem_singleton.mp created ▸ all.root

variable {old : MountTable F}

theorem append_eq {mount : Mount F} (done : old.append mount = some new) : new = old ++ [mount] := by
  unfold append at done
  split at done
  · simp at done
  · exact (some.inj done).symm

theorem remove_eq (done : old.remove target = some new) :
    ∃ first rest, old = first :: rest ∧ new = first :: rest.eraseP fun m => pathsEqual m.path target := by
  cases old with
  | nil => simp [remove] at done
  | cons first rest =>
    rw [remove] at done
    split at done
    · exact ⟨first, rest, rfl, (some.inj done).symm⟩
    · simp at done

theorem find_remove (normals : old.AllNormal) (done : old.remove (umountTarget target) = some new)
    (outside : ¬ AtOrBelow (normaliseMountPath target) path) : new.find path = old.find path := by
  obtain ⟨first, rest, rfl, rfl⟩ := remove_eq done
  rcases exists_or_eq_self_of_eraseP (fun m => pathsEqual m.path (umountTarget target)) rest
    with same | ⟨m, front, back, _, equal, split, erased⟩
  · rw [same]
  · have mem : m ∈ first :: rest := by simp [split]
    have light : mountPrefixLen path m.path = 0 := by
      rw [mountPrefixLen_eq (normals m mem), if_neg]
      rwa [eq_of_pathsEqual (normals m mem) equal]
    rw [erased, split, find, find, ← (pick_filter _ _).1, ← (pick_filter _ (first :: (front ++ m :: back))).1]
    simp [filter_cons, light]

abbrev WellMounted (m : MountTables F) : Prop := m.All MountTable.AllNormal

theorem append_normal (old : MountTable F) (path : Str) (fs : F) (flags : Nat) (new : MountTable F)
    (normals : old.AllNormal)
    (done : old.append ⟨normaliseMountPath path, fs, flags⟩ = some new) : new.AllNormal := by
  cases append_eq done
  intro e mem
  cases mem_append.mp mem with
  | inl old => exact normals e old
  | inr last =>
    rw [mem_singleton.mp last]
    exact normal_normalise path

theorem remove_normal (old : MountTable F) (target : Str) (new : MountTable F)
    (normals : old.AllNormal) (done : old.remove target = some new) : new.AllNormal := by
  obtain ⟨first, rest, rfl, rfl⟩ := remove_eq done
  intro e mem
  cases mem_cons.mp mem with
  | inl same => exact normals e (same ▸ mem_cons_self)
  | inr later => exact normals e (.tail _ (mem_of_mem_eraseP later))

theorem init_wellMounted (root : F) : (init root).WellMounted := by
  refine ⟨fun e mem => ?_, fun _ mem => absurd mem not_mem_nil⟩
  rw [mem_singleton.mp mem]
  exact .inl rfl

theorem wellMounted_of_run (root : F) (calls : List (Call F))
    (run : exec step calls (init root) = some m) : m.WellMounted :=
  invariant WellMounted (step_all append_normal remove_normal) (init_wellMounted root) run

/-- The mount points are normal, and the first is the root. -/
def Rooted (table : MountTable F) : Prop := table.AllNormal ∧ table.head?.map Mount.path = some [SLASH]

theorem append_rooted (old : MountTable F) (path : Str) (fs : F) (flags : Nat) (new : MountTable F)
    (rooted : Rooted old) (done : old.append ⟨normaliseMountPath path, fs, flags⟩ = some new) : Rooted new := by
  refine ⟨append_normal old path fs flags new rooted.1 done, ?_⟩
  cases append_eq done
  cases old with
  | nil => exact absurd rooted.2 (by simp)
  | cons first rest => exact rooted.2

theorem remove_rooted (old : MountTable F) (target : Str) (new : MountTable F) (rooted : Rooted old)
    (done : old.remove target = some new) : Rooted new := by
  refine ⟨remove_normal old target new rooted.1 done, ?_⟩
  obtain ⟨first, rest, rfl, rfl⟩ := remove_eq done
  exact rooted.2

/-- Whatever is mounted and unmounted, an absolute path has a mount in every namespace,
    and no mount point over the path is longer than the one found. -/
theorem absolute_paths_covered (root : F) (calls : List (Call F)) :
    Always step (fun m => ∀ nsId path, path.head? = some SLASH →
      ∃ e, m.findMountInTable nsId path = some e ∧ AtOrBelow e.path path ∧
        ∀ other ∈ m.table nsId, AtOrBelow other.path path → other.path.length ≤ e.path.length) calls
      (init root) := by
  refine always_of_invariant (All Rooted) (step_all append_rooted remove_rooted) ?_
    ⟨⟨(init_wellMounted root).root, rfl⟩, fun _ mem => absurd mem not_mem_nil⟩
  intro m all nsId path absolute
  obtain ⟨normals, head⟩ := all.table nsId
  obtain ⟨first, here, slash⟩ := map_eq_some_iff.mp head
  have under : AtOrBelow first.path path := by rwa [slash]
  obtain ⟨e, found⟩ := pick_covered normals (mem_of_mem_head? here) under
  exact ⟨e, findMountInTable_eq.trans found, pick_longest normals found⟩

/-- What a mount of `fs` at `path` that succeeds should bring about: every path at or
    below it that no longer mount point covers resolves to `fs`; no other namespace
    with its own table sees it; and an `umount` right after it takes it back. -/
def MountLaw (m : MountTables F) (nsId : Nat) (path : Str) (fs : F) (flags : Nat) : Prop :=
  ∀ m', m.mountInNsInner nsId path fs flags = (true, m') →
    (∀ target, AtOrBelow (normaliseMountPath path) target →
      (∀ e ∈ m'.table nsId, AtOrBelow e.path target →
        e.path.length ≤ (normaliseMountPath path).length) →
      (m'.findMountInTable nsId target).map Mount.fs = some fs) ∧
    (∀ other ≠ nsId, m.Own other → ∀ target,
      m'.findMountInTable other target = m.findMountInTable other target) ∧
    ∀ m'', m'.umountInNs nsId path = (true, m'') →
      ∀ target, m''.findMountInTable nsId target = m.findMountInTable nsId target

/-- The table is full, so that a mount is refused. -/
def Full (m : MountTables F) (nsId : Nat) : Prop := MAX_MOUNTS ≤ (m.table nsId).length

theorem append_full (full : m.Full nsId) (mount : Mount F) : (m.table nsId).append mount = none :=
  if_pos full

theorem append_room (room : ¬ m.Full nsId) (mount : Mount F) :
    (m.table nsId).append mount = some (m.table nsId ++ [mount]) :=
  if_neg room

theorem mountLaw_of_fresh (mounted : m.WellMounted) (own : m.Own nsId)
    (fresh : (m.table nsId).Fresh (normaliseMountPath path)) (fs : F) (flags : Nat) :
    m.MountLaw nsId path fs flags := by
  intro m' done
  have normals := mounted.table nsId
  rw [mountInNsInner_eq] at done
  by_cases full : m.Full nsId
  · rw [append_full full] at done
    simp at done
  rw [append_room full] at done
  cases (Prod.mk.inj done).2
  refine ⟨?_, ?_, ?_⟩
  · intro target below longest
    rw [table_setTable] at longest
    rw [findMountInTable_eq, table_setTable, find_append normals (normal_normalise path) fresh below]
    · rfl
    · exact fun e mem => longest e (mem_append_left _ mem)
  · intro other apart owner target
    rw [findMountInTable_eq, findMountInTable_eq, table_setTable_other apart owner (.inl own)]
  · intro m'' undone target
    rw [umountInNs_eq] at undone
    split at undone
    · rw [table_setTable] at undone
      split at undone
      · simp at undone
      · next back removed =>
        cases (Prod.mk.inj undone).2
        rw [findMountInTable_eq, findMountInTable_eq, table_setTable, remove_append normals fresh removed]
    · simp at undone

theorem not_mountLaw_of_used [Nontrivial F] (mounted : m.WellMounted) (room : ¬ m.Full nsId)
    (used : ¬ (m.table nsId).Fresh (normaliseMountPath path)) : ∃ fs, ¬ m.MountLaw nsId path fs 0 := by
  have normals := mounted.table nsId
  obtain ⟨e, found⟩ := find_used normals used
  obtain ⟨fs, differs⟩ := exists_ne e.fs
  refine ⟨fs, fun law => differs ?_⟩
  have done : m.mountInNsInner nsId path fs 0 =
      (true, m.setTable nsId (m.table nsId ++ [⟨normaliseMountPath path, fs, 0⟩])) := by
    rw [mountInNsInner_eq, append_room room]
  have effect := (law _ done).1 (normaliseMountPath path) (atOrBelow_self _)
    fun e _ below => below.isPrefix.length_le
  rw [findMountInTable_eq, table_setTable, find_append_used used, found] at effect
  exact (some.inj effect).symm

theorem not_mountLaw_of_fallback (mounted : m.WellMounted) (room : ¬ m.Full nsId)
    (fallback : ¬ m.Own nsId) (fresh : (m.table nsId).Fresh (normaliseMountPath path)) (fs : F) :
    ¬ m.MountLaw nsId path fs 0 := by
  intro law
  have inner : nsId ≠ NS_ROOT := fun root => fallback (.inl root)
  have absent : (m.spaces.find? fun entry => entry.nsId == nsId) = none := by
    rw [← not_isSome_iff_eq_none]
    exact fun found => fallback (.inr found)
  have same : m.table nsId = m.root := table_fallback inner absent
  have done : m.mountInNsInner nsId path fs 0 =
      (true, { m with root := m.root ++ [⟨normaliseMountPath path, fs, 0⟩] }) := by
    rw [mountInNsInner_eq, append_room room, same]
    simp only [setTable_fallback absent]
  have frame := (law _ done).2.1 NS_ROOT inner.symm (.inl rfl) (normaliseMountPath path)
  rw [findMountInTable_eq, findMountInTable_eq, table_root rfl, table_root rfl] at frame
  rw [same] at fresh
  rw [find_append mounted.root (normal_normalise path) fresh (atOrBelow_self _)
    fun e _ below => below.isPrefix.length_le] at frame
  exact fresh _ (pick_some frame.symm).1 rfl

/-- In every state that a history of calls reaches, mounting at `path` obeys the law,
    for every file system and flags, exactly if the table is full, or it is the
    namespace's own and nothing is mounted there yet. -/
theorem mountLaw_iff_fresh [Nontrivial F] (root : F) (calls : List (Call F)) {m : MountTables F}
    (run : exec step calls (init root) = some m) (nsId : Nat) (path : Str) :
    (∀ fs flags, m.MountLaw nsId path fs flags) ↔
      m.Full nsId ∨ (m.Own nsId ∧ (m.table nsId).Fresh (normaliseMountPath path)) := by
  have mounted := wellMounted_of_run root calls run
  constructor
  · intro law
    by_contra neither
    obtain ⟨room, other⟩ := not_or.mp neither
    by_cases fresh : (m.table nsId).Fresh (normaliseMountPath path)
    · have fallback : ¬ m.Own nsId := fun own => other ⟨own, fresh⟩
      exact not_mountLaw_of_fallback mounted room fallback fresh root (law root 0)
    · obtain ⟨fs, broken⟩ := not_mountLaw_of_used mounted room fresh
      exact broken (law fs 0)
  · rintro (full | ⟨own, fresh⟩)
    · intro fs flags m' done
      rw [mountInNsInner_eq, append_full full] at done
      simp at done
    · exact mountLaw_of_fresh mounted own fresh

/-- A second file system over the first, and a mount from namespace 7, which has no
    table. -/
def stacked : MountTables Nat := ((init 0).mountInNs NS_ROOT (str "/a") 1).2

/-- The second mount is never seen, the `umount` takes away the first, and the root
    namespace sees the mount of the other. -/
theorem stacked_mount_ineffective :
    (stacked.mountInNs NS_ROOT (str "/a") 2).1 = true ∧
    ((stacked.mountInNs NS_ROOT (str "/a") 2).2.findMountInTable NS_ROOT (str "/a")).map Mount.fs =
      some 1 ∧
    ((stacked.mountInNs NS_ROOT (str "/a") 2).2.umountInNs NS_ROOT (str "/a")).1 = true ∧
    (((stacked.mountInNs NS_ROOT (str "/a") 2).2.umountInNs NS_ROOT (str "/a")).2.findMountInTable
      NS_ROOT (str "/a")).map Mount.fs = some 2 ∧
    (stacked.mountInNs 7 (str "/b") 3).1 = true ∧
    ((stacked.mountInNs 7 (str "/b") 3).2.findMountInTable NS_ROOT (str "/b")).map Mount.fs =
      some 3 := by
  decide +kernel

/-- Two mounts at different points, one of them in a namespace of its own. -/
def twoPoints : List (Call Nat) :=
  [.mount NS_ROOT (str "/a") 1 0, .createMntNs 7, .mount 7 (str "/b") 2 0]

theorem mountLaw_iff_fresh_twoPoints :
    ∃ m, exec step twoPoints (init 0) = some m ∧ m.MountLaw 7 (str "/a/c") 3 1 := by
  obtain ⟨m, reached⟩ : ∃ m, exec step twoPoints (init 0) = some m := ⟨_, rfl⟩
  have fresh : (exec step twoPoints (init 0)).map (fun m => decide (m.Own 7 ∧
      (m.table 7).Fresh (normaliseMountPath (str "/a/c")))) = some true := by decide +kernel
  rw [reached] at fresh
  exact ⟨m, reached, (mountLaw_iff_fresh 0 twoPoints reached 7 (str "/a/c")).mpr
    (.inr (of_decide_eq_true (some.inj fresh))) 3 1⟩

end MountTables

end Zenus.Fs
