import Zenus.Fs.Components
import Zenus.Fs.Tmpfs
import Mathlib.Data.List.Find
import Mathlib.Logic.Equiv.List

/-! # Path resolution and lexical normalisation

The mount of a path is chosen by its text, before `.`, `..` and repeated slashes are
interpreted, and inside the mount `..` never drops the first segment.  So a path
resolves like its normal form exactly if the same mount point is the longest over
both, and no `..` is met with fewer than two segments open below it.
-/

namespace Zenus.Fs

open Lib.Best List Option TmpFs Nat

/-- The mount points of a table behind the root. -/
structure MountPoints where
  inner : List Str
  normal : ∀ p ∈ inner, Normal p

def MountPoints.all (points : MountPoints) : List Str := [SLASH] :: points.inner

/-- The longest mount point over a path. -/
structure Longest (points : List Str) (p path : Str) : Prop where
  mem : p ∈ points
  below : AtOrBelow p path
  longest : ∀ q ∈ points, AtOrBelow q path → q.length ≤ p.length

section Points

variable {points : List Str} {p path : Str}

theorem MountPoints.normal_all (points : MountPoints) : ∀ p ∈ points.all, Normal p := by
  intro p mem
  cases mem_cons.mp mem with
  | inl root => exact .inl root
  | inr inner => exact points.normal p inner

theorem MountPoints.exists_longest (points : MountPoints) (absolute : path.head? = some SLASH) :
    ∃ p, Longest points.all p path := by
  have covered : AtOrBelow [SLASH] path := by rwa [AtOrBelow, if_pos rfl]
  obtain ⟨p, picked⟩ := pick_covered points.normal_all (.head _) covered
  obtain ⟨below, longest⟩ := pick_longest points.normal_all picked
  exact ⟨p, (pick_some picked).1, below, longest⟩

variable {F : Type} {table : MountTable F}

theorem MountTable.find_longest (normals : table.AllNormal)
    (longest : Longest (table.map Mount.path) p path) :
    table.find path = table.find? fun m => m.path == p := by
  have weight : ∀ m ∈ table, mountPrefixLen path m.path =
      if AtOrBelow m.path path then m.path.length else 0 := fun m mem =>
    mountPrefixLen_eq (normals m mem)
  obtain ⟨first, mem, here⟩ := mem_map.mp longest.mem
  have pos : 0 < p.length := length_pos_iff.mpr (here ▸ (normals first mem).ne_nil)
  have heaviest : top (fun m => mountPrefixLen path m.path) table = p.length := by
    refine le_antisymm ?_ ?_
    · rw [← Nat.lt_succ_iff, top_lt_iff (Nat.succ_pos _)]
      intro m inside
      rw [weight m inside]
      split
      · next under => exact lt_succ_of_le (longest.longest _ (mem_map_of_mem inside) under)
      · exact Nat.succ_pos _
    · have heavy := le_top (fun m => mountPrefixLen path m.path) mem
      rwa [weight first mem, if_pos (here ▸ longest.below), here] at heavy
  rw [MountTable.find, pick_eq_find (heaviest ▸ pos), heaviest]
  refine find?_congr fun m inside => ?_
  rw [weight m inside, Bool.eq_iff_iff, beq_iff_eq, beq_iff_eq]
  constructor
  · intro same
    split at same
    · next under => exact under.unique longest.below same
    · omega
  · intro same
    rw [same, if_pos longest.below]

theorem AtOrBelow.rest (below : AtOrBelow mount path) :
    ∃ rest, path = mount ++ rest ∧ (mount ≠ [SLASH] → rest = [] ∨ rest.head? = some SLASH) := by
  obtain ⟨rest, rfl⟩ := below.isPrefix
  refine ⟨rest, rfl, fun inner => ?_⟩
  rw [AtOrBelow, if_neg inner, prefix_append_right_inj] at below
  rcases below with same | ⟨more, rfl⟩
  · exact .inl (by simpa using same)
  · exact .inr rfl

/-- The mount that is found is the longest over the path, and there is none exactly if
    no mount covers the path.  What `open_in_ns` strips ends at a component. -/
theorem findMountInTable_exact {F : Type} {m : MountTables F} {nsId : Nat} (path : Str)
    (normalised : ∀ e ∈ m.table nsId, ∃ p, e.path = normaliseMountPath p) :
    (m.findMountInTable nsId path = none ↔ ∀ e ∈ m.table nsId, ¬ AtOrBelow e.path path) ∧
      ∀ e, m.findMountInTable nsId path = some e →
        Longest ((m.table nsId).map Mount.path) e.path path ∧
        ∃ rest, path = e.path ++ rest ∧
          (e.path ≠ [SLASH] → rest = [] ∨ rest.head? = some SLASH) ∧
          relativePath path e.path =
            if e.path = [SLASH] then path else if rest = [] then [SLASH] else rest := by
  have normals : ∀ e ∈ m.table nsId, Normal e.path := by
    intro e mem
    obtain ⟨p, stored⟩ := normalised e mem
    exact stored ▸ normal_normalise p
  rw [MountTables.findMountInTable_eq]
  refine ⟨⟨fun none e mem under => ?_, fun bare => eq_none_iff_forall_ne_some.mpr fun e found => ?_⟩,
    fun e found => ?_⟩
  · obtain ⟨_, picked⟩ := pick_covered normals mem under
    exact absurd (none.symm.trans picked) (by simp)
  · exact bare e (pick_some found).1 (pick_longest normals found).1
  · obtain ⟨below, longest⟩ := pick_longest normals found
    have mem := (pick_some found).1
    obtain ⟨rest, rfl, boundary⟩ := below.rest
    refine ⟨⟨mem_map_of_mem mem, below, forall_mem_map.mpr longest⟩, rest, rfl, boundary, ?_⟩
    simp [relativePath, (normals e mem).ne_nil]

/-- A mount at `/tmp` beside the root. -/
def tmpMounted : MountTables Unit := ((MountTables.init ()).mountInNs NS_ROOT (str "tmp/") ()).2

theorem findMountInTable_exact_tmpMounted :
    ∃ e, tmpMounted.findMountInTable NS_ROOT (str "/tmpx/a") = some e ∧ e.path = [SLASH] ∧
      Longest ((tmpMounted.table NS_ROOT).map Mount.path) e.path (str "/tmpx/a") := by
  have normalised : ∀ e ∈ tmpMounted.table NS_ROOT, e.path = normaliseMountPath e.path := by decide +kernel
  obtain ⟨e, found, root⟩ : ∃ e, tmpMounted.findMountInTable NS_ROOT (str "/tmpx/a") = some e ∧
      e.path = [SLASH] := Lib.Run.exists_of_any (by decide +kernel)
  exact ⟨e, found, root, ((findMountInTable_exact _ fun e mem => ⟨_, normalised e mem⟩).2 e found).1⟩

end Points

section Trees

variable {F : Type} {σ : F → Type} (ops : (f : F) → FileSystem (σ f)) (v : Vfs F σ) (nsId : Nat)

/-- The namespace has its mounts at these points, and the root of the VFS is the
    first of them, as `vfs::init` leaves it. -/
def MountedAt (points : MountPoints) : Prop :=
  ∃ first rest, v.mounts.table nsId = ⟨[SLASH], first, 0⟩ :: rest ∧
    rest.map Mount.path = points.inner ∧ v.root = some ⟨first, (ops first).rootInode, false⟩

/-- No inode of any file system is a symbolic link. -/
def NoSymlinks : Prop := ∀ f inode, ((ops f).stat (v.states f) inode).fileType ≠ .symlink

def descend (f : F) (names : List Str) : Option Nat :=
  names.foldlM (fun inode name => (ops f).lookup (v.states f) inode name) (ops f).rootInode

/-- The type of what the components name, found name by name below the longest mount
    point over them. -/
def typeOf (cs : List Str) : Option FileType :=
  (v.mounts.findMountInTable nsId (render cs)).bind fun m =>
    (descend ops v m.fs (inner (render cs) m.path)).map fun inode =>
      ((ops m.fs).stat (v.states m.fs) inode).fileType

/-- All intermediate components of a path exist as directories. -/
def DirectoriesOn (path : Str) : Prop :=
  ∀ n < (comps path).length,
    typeOf ops v nsId (((comps path).take n).foldl cancel []) = some .directory

end Trees

/-- Every machine with these mount points, whose trees have no symbolic links and all
    the directories on the path, resolves the path like its normal form. -/
def ResolvesAsNormalForm (points : MountPoints) (path : Str) : Prop :=
  ∀ (F : Type) (σ : F → Type) (ops : (f : F) → FileSystem (σ f)) (v : Vfs F σ) (nsId : Nat),
    MountedAt ops v nsId points → NoSymlinks ops v → DirectoriesOn ops v nsId path →
    openInNs ops v nsId path = openInNs ops v nsId (normalForm path)

section Resolving

variable {F : Type} {σ : F → Type} {ops : (f : F) → FileSystem (σ f)} {v : Vfs F σ} {nsId : Nat}
variable {points : MountPoints} {path p : Str}

theorem walk_noSymlinks (plain : NoSymlinks ops v) (f : F) (readOnly : Bool) (mountPrefix : Str)
    (restart : Str → Option (VfsNode F)) (done : List Str) (inode : Nat) (segs : List Str) :
    walk ops v f readOnly mountPrefix true restart done inode segs =
      (segs.foldlM (fun inode name => (ops f).lookup (v.states f) inode name) inode).map
        fun inode => ⟨f, inode, readOnly⟩ := by
  induction segs generalizing done inode with
  | nil => rfl
  | cons name segs ih =>
    rw [walk, foldlM_cons]
    cases (ops f).lookup (v.states f) inode name with
    | none => rfl
    | some next =>
      simp only [plain f next, false_and, if_false]
      exact ih (done ++ [name]) next

variable (mounted : MountedAt ops v nsId points)

include mounted

theorem MountedAt.paths : (v.mounts.table nsId).map Mount.path = points.all := by
  obtain ⟨first, rest, table, inner, _⟩ := mounted
  rw [table, map_cons, inner]
  rfl

theorem MountedAt.allNormal : (v.mounts.table nsId).AllNormal := by
  intro m mem
  refine points.normal_all m.path ?_
  rw [← mounted.paths]
  exact mem_map_of_mem mem

theorem MountedAt.find (longest : Longest points.all p path) :
    v.mounts.findMountInTable nsId path = (v.mounts.table nsId).find? fun m => m.path == p := by
  rw [MountTables.findMountInTable_eq]
  exact MountTable.find_longest mounted.allNormal (mounted.paths ▸ longest)

omit mounted

theorem longest_root (points : MountPoints) : Longest points.all [SLASH] [SLASH] :=
  ⟨.head _, rfl, fun _ _ under => under.isPrefix.length_le⟩

include mounted

theorem openInNs_eq (plain : NoSymlinks ops v) (absolute : path.head? = some SLASH) :
    openInNs ops v nsId path = (v.mounts.findMountInTable nsId path).bind fun m =>
      ((inner path m.path).foldlM pushPart []).bind fun segs =>
        (descend ops v m.fs segs).map fun inode => ⟨m.fs, inode, m.flags &&& MS_RDONLY != 0⟩ := by
  have nonempty : path ≠ [] := by
    rintro rfl
    simp at absolute
  rw [openInNs, MAX_SYMLINK_DEPTH, openInNsDepth, resolve]
  by_cases root : path = [SLASH]
  · obtain ⟨first, rest, table, _, node⟩ := id mounted
    have none : inner [SLASH] [SLASH] = [] := rfl
    rw [if_pos (by simp [root]), node, root, mounted.find (longest_root points), table,
      find?_cons_of_pos (by rfl), Option.bind_some, none]
    have writable : (0 &&& MS_RDONLY != 0) = false := by decide
    simp only [foldlM_nil, Option.pure_def, Option.bind_some, descend, Option.map_some, writable]
  · rw [if_neg (by simpa using ⟨root, nonempty⟩)]
    cases v.mounts.findMountInTable nsId path with
    | none => rfl
    | some m =>
      simp only [bind_some]
      split
      · next short =>
        have none : inner path m.path = [] := by
          unfold inner
          rcases Bool.or_eq_true _ _ ▸ short with slash | empty
          · rw [beq_iff_eq.mp slash]
            rfl
          · rw [isEmpty_iff.mp empty]
            rfl
        rw [none]
        rfl
      · rw [segments_eq, ← inner]
        cases (inner path m.path).foldlM pushPart [] with
        | none => rfl
        | some segs =>
          exact walk_noSymlinks plain _ _ _ _ _ _ _

theorem MountedAt.find_some (longest : Longest points.all p path) :
    ∃ m ∈ v.mounts.table nsId, v.mounts.findMountInTable nsId path = some m ∧ m.path = p := by
  have mem : p ∈ (v.mounts.table nsId).map Mount.path := mounted.paths ▸ longest.mem
  obtain ⟨m, inside, here⟩ := mem_map.mp mem
  have exist : ((v.mounts.table nsId).find? fun m => m.path == p).isSome := by
    rw [find?_isSome]
    exact ⟨m, inside, beq_iff_eq.mpr here⟩
  obtain ⟨found, first⟩ := isSome_iff_exists.mp exist
  have point := find?_some first
  exact ⟨found, mem_of_find?_eq_some first, (mounted.find longest).trans first, beq_iff_eq.mp point⟩

end Resolving

section Conditions

variable {points : MountPoints} {path p : Str} {segs : List Str}

/-- The same mount point is the longest over the path and its normal form, and every
    `..` below it closes one of at least two segments, or is met at the root. -/
def SteadyBelow (points : MountPoints) (path : Str) : Prop :=
  ∃ p, Longest points.all p path ∧ Longest points.all p (normalForm path) ∧
    Steady (p = [SLASH]) 0 (inner path p)

/-- Both the path and its normal form are refused for their number of segments. -/
def BothOverflow (points : MountPoints) (path : Str) : Prop :=
  ∃ p q, Longest points.all p path ∧ Overflows 0 (inner path p) ∧
    Longest points.all q (normalForm path) ∧ Overflows 0 (inner (normalForm path) q)

theorem render_absolute (cs : List Str) : (render cs).head? = some SLASH := by
  unfold render
  split
  · rfl
  · next some =>
    obtain ⟨c, cs, rfl⟩ := exists_cons_of_ne_nil some
    rfl

theorem normalForm_absolute (path : Str) : (normalForm path).head? = some SLASH := render_absolute _

theorem components_inner (path mount : Str) : ∀ c ∈ inner path mount, Component c := fun _ mem =>
  (mem_comps.mp mem).2

section Below

variable (longest : Longest points.all p (normalForm path))

include longest

theorem normalComps_split : normalComps path = comps p ++ inner (normalForm path) p := by
  rw [← comps_relativePath (points.normal_all p longest.mem) longest.below, normalForm,
    comps_render (proper_normalComps path)]

theorem proper_inner : ∀ c ∈ inner (normalForm path) p, Proper c := by
  intro c mem
  refine proper_normalComps path c ?_
  rw [normalComps_split longest]
  exact mem_append_right _ mem

theorem proper_comps : ∀ c ∈ comps p, Proper c :=
  mount_proper (points.normal_all p longest.mem) (proper_normalComps path) longest.below

theorem normalComps_below (overPath : AtOrBelow p path) :
    normalComps path = (inner path p).foldl cancel (comps p) := by
  rw [normalComps, comps_relativePath (points.normal_all p longest.mem) overPath, foldl_append,
    foldl_cancel_proper (proper_comps longest), nil_append]

theorem root_iff : p = [SLASH] ↔ comps p = [] := by
  constructor
  · rintro rfl
    rfl
  · intro none
    by_contra notRoot
    exact mount_comps_ne_nil (points.normal_all p longest.mem) (proper_normalComps path)
      longest.below notRoot none

theorem segments_steady (overPath : AtOrBelow p path) (steady : Steady (p = [SLASH]) 0 (inner path p)) :
    (inner path p).foldlM pushPart [] = some (inner (normalForm path) p) := by
  obtain ⟨segs, run, stack⟩ := @foldlM_steady _ (comps p) [] _ (components_inner path p)
    (root_iff longest).mp steady
  rw [append_nil, ← normalComps_below longest overPath, normalComps_split longest] at stack
  rw [run, append_cancel_left stack]

theorem steady_of_segments (overPath : AtOrBelow p path)
    (run : (inner path p).foldlM pushPart [] = some (inner (normalForm path) p)) :
    Steady (p = [SLASH]) 0 (inner path p) := by
  by_contra unsteady
  have ahead := @ahead_of_unsteady _ (comps p) [] _ _ (components_inner path p)
    (root_iff longest) unsteady run
  rw [append_nil, ← normalComps_below longest overPath, normalComps_split longest, length_append] at ahead
  exact lt_irrefl _ ahead

end Below

end Conditions

theorem resolves_of_steadyBelow {points : MountPoints} {path : Str}
    (absolute : path.head? = some SLASH) (steady : SteadyBelow points path) :
    ResolvesAsNormalForm points path := by
  intro F σ ops v nsId mounted plain _
  obtain ⟨p, overPath, overNormal, steady⟩ := steady
  have same := segments_steady overNormal overPath.below steady
  have fits : (inner (normalForm path) p).length ≤ MAX_PATH_SEGMENTS :=
    length_foldlM_le (components_inner path p) (zero_le _) same
  have normal : (inner (normalForm path) p).foldlM pushPart [] = some (inner (normalForm path) p) := by
    rw [foldlM_proper (proper_inner overNormal) (zero_le _), length_nil, zero_add, if_pos fits]
    rfl
  obtain ⟨m, _, found, here⟩ := mounted.find_some overPath
  have again : v.mounts.findMountInTable nsId (normalForm path) = some m := by
    rw [mounted.find overNormal, ← mounted.find overPath, found]
  rw [openInNs_eq mounted plain absolute, openInNs_eq mounted plain (normalForm_absolute _), found,
    again, bind_some, bind_some, here, same, normal]

theorem resolves_of_bothOverflow {points : MountPoints} {path : Str}
    (absolute : path.head? = some SLASH) (overflow : BothOverflow points path) :
    ResolvesAsNormalForm points path := by
  intro F σ ops v nsId mounted plain _
  obtain ⟨p, q, overPath, full, overNormal, fullNormal⟩ := overflow
  obtain ⟨m, _, found, rfl⟩ := mounted.find_some overPath
  obtain ⟨m', _, found', rfl⟩ := mounted.find_some overNormal
  have refused : (inner path m.path).foldlM pushPart [] = none :=
    (foldlM_none_iff (components_inner _ _)).mpr full
  have refused' : (inner (normalForm path) m'.path).foldlM pushPart [] = none :=
    (foldlM_none_iff (components_inner _ _)).mpr fullNormal
  rw [openInNs_eq mounted plain absolute, openInNs_eq mounted plain (normalForm_absolute _), found,
    found', bind_some, bind_some, refused, refused']
  rfl

section Everywhere

/-- The inode of a name in the directory `inode`, different for every such pair. -/
def child (inode : Nat) (name : Str) : Nat := Nat.pair inode (Encodable.encode (name.map UInt8.toNat)) + 1

/-- A file system in which every name exists in every directory. -/
def everywhere : FileSystem Unit where
  rootInode := 0
  read _ _ _ _ := none
  write s _ _ _ := (none, s)
  readDir _ _ := []
  stat _ inode :=
    { size := 0, fileType := .directory, inode, blocks := 0, uid := 0, gid := 0, mode := 0 }
  create s _ _ _ := (none, s)
  unlink s _ _ := (false, s)
  lookup _ inode name := some (child inode name)

/-- Such a file system of its own at every mount point. -/
def distinct (points : MountPoints) : Vfs Nat fun _ => Unit where
  mounts := ⟨points.all.mapIdx fun i p => ⟨p, i, 0⟩, []⟩
  root := some ⟨0, 0, false⟩
  states _ := ()

variable {points : MountPoints} {path a b : Str}

theorem child_injective {i j : Nat} (same : child i a = child j b) : i = j ∧ a = b := by
  have parts := pair_eq_pair.mp (succ.inj same)
  refine ⟨parts.1, ?_⟩
  exact map_injective_iff.mpr (fun _ _ => UInt8.toNat_inj.mp) (Encodable.encode_injective parts.2)

theorem foldl_child_injective {xs ys : List Str} (same : xs.foldl child 0 = ys.foldl child 0) : xs = ys := by
  induction xs using List.reverseRecOn generalizing ys with
  | nil =>
    cases ys using List.reverseRecOn with
    | nil => rfl
    | append_singleton ys y =>
      rw [foldl_append] at same
      exact absurd same.symm (succ_ne_zero _)
  | append_singleton xs x ih =>
    cases ys using List.reverseRecOn with
    | nil =>
      rw [foldl_append] at same
      exact absurd same (succ_ne_zero _)
    | append_singleton ys y =>
      rw [foldl_append, foldl_append] at same
      obtain ⟨front, last⟩ := child_injective same
      rw [ih front, last]

theorem mounted_distinct (points : MountPoints) :
    MountedAt (fun _ => everywhere) (distinct points) NS_ROOT points := by
  refine ⟨0, points.inner.mapIdx fun i p => ⟨p, i + 1, 0⟩, mapIdx_cons, ?_, rfl⟩
  exact ext_getElem (by simp) fun i _ _ => by simp

theorem descend_everywhere (f : Nat) (names : List Str) :
    descend (fun _ => everywhere) (distinct points) f names = some (names.foldl child 0) :=
  foldlM_pure

theorem directories_everywhere : DirectoriesOn (fun _ => everywhere) (distinct points) NS_ROOT path := by
  intro n _
  obtain ⟨p, longest⟩ := points.exists_longest (render_absolute (((comps path).take n).foldl cancel []))
  obtain ⟨m, _, found, _⟩ := (mounted_distinct points).find_some longest
  rw [typeOf, found, bind_some, descend_everywhere]
  rfl

theorem path_distinct {m m' : Mount Nat} (mem : m ∈ (distinct points).mounts.table NS_ROOT)
    (mem' : m' ∈ (distinct points).mounts.table NS_ROOT) (same : m.fs = m'.fs) : m.path = m'.path := by
  obtain ⟨i, inside, rfl⟩ := mem_mapIdx.mp mem
  obtain ⟨j, inside', rfl⟩ := mem_mapIdx.mp mem'
  obtain rfl : i = j := same
  rfl

theorem conditions_of_resolves (absolute : path.head? = some SLASH)
    (resolves : ResolvesAsNormalForm points path) : SteadyBelow points path ∨ BothOverflow points path := by
  have mounted := mounted_distinct points
  have plain : NoSymlinks (fun _ => everywhere) (distinct points) := fun _ _ => FileType.noConfusion
  have same := resolves _ _ _ _ _ mounted plain directories_everywhere
  obtain ⟨p, overPath⟩ := points.exists_longest absolute
  obtain ⟨q, overNormal⟩ := points.exists_longest (normalForm_absolute path)
  obtain ⟨m, mem, found, rfl⟩ := mounted.find_some overPath
  obtain ⟨m', mem', found', rfl⟩ := mounted.find_some overNormal
  rw [openInNs_eq mounted plain absolute, openInNs_eq mounted plain (normalForm_absolute _), found,
    found', bind_some, bind_some] at same
  cases run : (inner path m.path).foldlM pushPart [] with
  | none =>
    cases run' : (inner (normalForm path) m'.path).foldlM pushPart [] with
    | none =>
      exact .inr ⟨_, _, overPath, (foldlM_none_iff (components_inner _ _)).mp run, overNormal,
        (foldlM_none_iff (components_inner _ _)).mp run'⟩
    | some segs' =>
      rw [run, run'] at same
      simp only [bind_none, bind_some, descend_everywhere] at same
      simp at same
  | some segs =>
    cases run' : (inner (normalForm path) m'.path).foldlM pushPart [] with
    | none =>
      rw [run, run'] at same
      simp only [bind_none, bind_some, descend_everywhere] at same
      simp at same
    | some segs' =>
      rw [run, run'] at same
      simp only [bind_some, descend_everywhere, map_some, some.injEq, VfsNode.mk.injEq] at same
      obtain ⟨samePoint, sameInode, _⟩ := same
      cases foldl_child_injective sameInode
      have point := path_distinct mem mem' samePoint
      rw [← point] at overNormal run'
      rw [foldlM_proper (proper_inner overNormal) (zero_le _)] at run'
      split at run'
      · cases run'
        exact .inl ⟨_, overPath, overNormal, steady_of_segments overNormal overPath.below run⟩
      · simp at run'

end Everywhere

/-- An absolute path resolves like its normal form, whatever the trees, exactly if the
    mount is the same for both and every `..` is met where the code follows it, or both
    have too many segments. -/
theorem resolves_iff_steadyBelow (points : MountPoints) (rest : Str) :
    ResolvesAsNormalForm points (SLASH :: rest) ↔
      SteadyBelow points (SLASH :: rest) ∨ BothOverflow points (SLASH :: rest) := by
  constructor
  · exact conditions_of_resolves rfl
  · rintro (steady | overflow)
    · exact resolves_of_steadyBelow rfl steady
    · exact resolves_of_bothOverflow rfl overflow

/-- A tree with the directories `a` and `b`. -/
def twoDirs : TmpFs :=
  (TmpFs.fileSystem.create (TmpFs.fileSystem.create TmpFs.boot.new 0 (str "a") .directory).2 0
    (str "b") .directory).2

/-- The tree at the root, and another one at the mount points. -/
def twoTrees (mounts : List (Mount Bool)) : Vfs Bool fun _ => TmpFs where
  mounts := ⟨⟨[SLASH], true, 0⟩ :: mounts, []⟩
  root := some ⟨true, 0, false⟩
  states root := if root then twoDirs else TmpFs.boot.new

theorem twoTrees_noSymlinks (mounts : List (Mount Bool)) :
    NoSymlinks (fun _ => fileSystem) (twoTrees mounts) := by
  have plain : ∀ root, ∀ i : Slot, (((twoTrees []).states root).nodes i).fileType ≠ .symlink := by
    decide +kernel
  intro root inode
  show (stat ((twoTrees []).states root) inode).fileType ≠ .symlink
  unfold stat
  split
  · exact plain root _
  · exact FileType.noConfusion

/-- With only the root mounted, `..` after the first segment is ignored; with a mount
    at `/m`, `..` does not leave it, and a doubled slash misses it. -/
theorem dotDot_not_normalised :
    (normalForm (str "/a/../b") = str "/b" ∧
      openInNs (fun _ => TmpFs.fileSystem) (twoTrees []) NS_ROOT (str "/a/../b") = none ∧
      openInNs (fun _ => TmpFs.fileSystem) (twoTrees []) NS_ROOT (str "/b") = some ⟨true, 2, false⟩) ∧
    (normalForm (str "/m/../b") = str "/b" ∧
      openInNs (fun _ => TmpFs.fileSystem) (twoTrees [⟨str "/m", false, 0⟩]) NS_ROOT
        (str "/m/../b") = none ∧
      openInNs (fun _ => TmpFs.fileSystem) (twoTrees [⟨str "/m", false, 0⟩]) NS_ROOT (str "/b") =
        some ⟨true, 2, false⟩) ∧
    (normalForm (str "//m") = str "/m" ∧
      openInNs (fun _ => TmpFs.fileSystem) (twoTrees [⟨str "/m", false, 0⟩]) NS_ROOT (str "//m") =
        none ∧
      openInNs (fun _ => TmpFs.fileSystem) (twoTrees [⟨str "/m", false, 0⟩]) NS_ROOT (str "/m") =
        some ⟨false, 0, false⟩) ∧
    ¬ ResolvesAsNormalForm ⟨[], by simp⟩ (str "/a/../b") := by
  have runs : openInNs (fun _ => fileSystem) (twoTrees []) NS_ROOT (str "/a/../b") = none ∧
      openInNs (fun _ => fileSystem) (twoTrees []) NS_ROOT (normalForm (str "/a/../b")) =
        some ⟨true, 2, false⟩ := by decide +kernel
  have dirs : ∀ n < (comps (str "/a/../b")).length, typeOf (fun _ => fileSystem) (twoTrees [])
      NS_ROOT (((comps (str "/a/../b")).take n).foldl cancel []) = some .directory := by
    decide +kernel
  refine ⟨by decide +kernel, by decide +kernel, by decide +kernel, fun resolves => ?_⟩
  have same := resolves Bool (fun _ => TmpFs) (fun _ => fileSystem) (twoTrees []) NS_ROOT
    ⟨true, [], rfl, rfl, rfl⟩ (twoTrees_noSymlinks []) dirs
  rw [runs.1, runs.2] at same
  simp at same

end Zenus.Fs
