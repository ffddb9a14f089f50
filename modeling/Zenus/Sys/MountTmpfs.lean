import Zenus.Sys.Files
import Zenus.Fs.PathNormal

/-! # Mounting a tmpfs

All tmpfs mounts share one table of nodes with the root file system, and constructing
a tmpfs writes its root node anew.  So a `mount` of type tmpfs that gets as far as the
constructor empties the tree at `/`, and shows the same tree at two places.
-/

namespace Zenus.Sys

open Fs Lib.Word List TmpFs MountTables MountTable Lib.Best Vfs

def MS_NOSUID : Nat := 2
def MS_NODEV : Nat := 4
def MS_NOEXEC : Nat := 8
def MS_REMOUNT : Nat := 32
def MS_SUPPORTED : Nat := MS_RDONLY ||| MS_NOSUID ||| MS_NODEV ||| MS_NOEXEC ||| MS_REMOUNT

def mountFlagsFromSyscall (flags : Nat) : Nat := if flags &&& MS_RDONLY ≠ 0 then MS_RDONLY else 0

def MAX_INTERNED_LEN : Nat := 512

/-- The one tmpfs, or one of the other file systems. -/
inductive FsId (G : Type) where
  | tmpfs
  | other (g : G)
  deriving DecidableEq

@[reducible] def FsState {G : Type} (τ : G → Type) : FsId G → Type
  | .tmpfs => TmpFs
  | .other g => τ g

section Mounting

variable {G : Type} {τ : G → Type} [DecidableEq G] (others : (g : G) → FileSystem (τ g))
  (find : (fstype source : Str) → Option G)

def fsOps : (f : FsId G) → FileSystem (FsState τ f)
  | .tmpfs => TmpFs.fileSystem
  | .other g => others g

/-- `TmpFs::new` on the machine. -/
def constructTmpfs (w : Files (FsId G) (FsState τ)) : Files (FsId G) (FsState τ) :=
  { w with vfs := w.vfs.setState .tmpfs (w.vfs.states .tmpfs).new }

/-- The last part of `sys_mount`: intern the target, make its directory, mount. -/
def attach (w : Files (FsId G) (FsState τ)) (f : FsId G) (target : Str) (flags : Nat) :
    Int × Files (FsId G) (FsState τ) :=
  if target.isEmpty || MAX_INTERNED_LEN < target.length then (-1, w)
  else
    let made := (createDirInNs (fsOps others) w.vfs NS_ROOT target).2
    let result := made.mounts.mountInNsInner NS_ROOT target f (mountFlagsFromSyscall flags)
    (if result.1 then 0 else -1, { w with vfs := { made with mounts := result.2 } })

/-- `sys_mount` with its strings already read; `admin` is `CAP_SYS_ADMIN`, and `find`
    stands for the types other than tmpfs. -/
def sysMount (w : Files (FsId G) (FsState τ)) (admin : Bool) (source target fstype : Str)
    (flags : Nat) : Int × Files (FsId G) (FsState τ) :=
  if !admin then (-1, w)
  else if flags &&& bnot MS_SUPPORTED ≠ 0 then (-1, w)
  else if fstype.isEmpty || target.isEmpty then (-1, w)
  else if 32 < fstype.length then (-1, w)
  else if fstype == str "ext2" && source.isEmpty then (-1, w)
  else if flags &&& MS_REMOUNT ≠ 0 then
    let result := w.vfs.mounts.umountInNs NS_ROOT target
    (if result.1 then 0 else -1, { w with vfs := { w.vfs with mounts := result.2 } })
  else if fstype = str "tmpfs" then attach others (constructTmpfs w) .tmpfs target flags
  else
    match find fstype source with
    | none => (-1, w)
    | some g => attach others w (.other g) target flags

end Mounting

section Frame

variable {F : Type} {σ : F → Type} (ops : (f : F) → FileSystem (σ f)) (v : Vfs F σ)
  (blocked : Str → Prop) [DecidablePred blocked]

/-- Resolve a path, links included, as long as no path on the way is blocked. -/
def openAvoiding : (depth : Nat) → Str → Option (VfsNode F)
  | 0, path => if blocked path then none else resolve ops v NS_ROOT true (fun _ => none) path
  | depth + 1, path =>
    if blocked path then none else resolve ops v NS_ROOT true (openAvoiding depth) path

variable {ops v blocked} {v' : Vfs F σ} {node : VfsNode F} {segs done : List Str} {inode depth : Nat}
  {restart restart' : Str → Option (VfsNode F)} {mountPrefix path : Str}

theorem walk_mono (states : v'.states = v.states) {f : F} {readOnly : Bool}
    (more : ∀ path, restart path = some node → restart' path = some node)
    (found : walk ops v f readOnly mountPrefix true restart done inode segs = some node) :
    walk ops v' f readOnly mountPrefix true restart' done inode segs = some node := by
  induction segs generalizing done inode with
  | nil => exact found
  | cons part tail ih =>
    rw [walk] at found ⊢
    rw [states]
    rcases looked : (ops f).lookup (v.states f) inode part with _ | next <;> rw [looked] at found
    · exact found
    · dsimp only at found ⊢
      split at found
      · next link =>
        rw [if_pos link]
        rcases text : (ops f).readlink (v.states f) next MAX_RESOLVED_PATH with _ | target <;> rw [text] at found
        · exact found
        · dsimp only at found ⊢
          split at found
          · next valid =>
            rw [if_pos valid]
            rcases expanded : joinLinkTarget mountPrefix done target tail with _ | joined <;> rw [expanded] at found
            · exact found
            · exact more joined found
          · simp at found
      · next link =>
        rw [if_neg link]
        exact ih found

theorem resolve_mono (states : v'.states = v.states) (root : v'.root = v.root)
    (mounts : v'.mounts.findMountInTable NS_ROOT path = v.mounts.findMountInTable NS_ROOT path)
    (more : ∀ path, restart path = some node → restart' path = some node)
    (found : resolve ops v NS_ROOT true restart path = some node) :
    resolve ops v' NS_ROOT true restart' path = some node := by
  unfold resolve at found ⊢
  rw [root, mounts]
  split
  · next top => rwa [if_pos top] at found
  · next top =>
    rw [if_neg top] at found
    rcases mounted : v.mounts.findMountInTable NS_ROOT path with _ | m <;> rw [mounted] at found
    · exact found
    · dsimp only at found ⊢
      split
      · next short => rwa [if_pos short] at found
      · next short =>
        rw [if_neg short] at found
        rcases parts : segments (relativePath path m.path) with _ | segs <;> rw [parts] at found
        · exact found
        · exact walk_mono states more found

theorem openInNsDepth_of_avoiding (states : v'.states = v.states) (root : v'.root = v.root)
    (mounts : ∀ path, ¬ blocked path →
      v'.mounts.findMountInTable NS_ROOT path = v.mounts.findMountInTable NS_ROOT path)
    (found : openAvoiding ops v blocked depth path = some node) :
    openInNsDepth ops v' NS_ROOT true depth path = some node := by
  induction depth generalizing path with
  | zero =>
    rw [openAvoiding] at found
    split at found
    · simp at found
    · next free => exact resolve_mono states root (mounts path free) (fun _ same => same) found
  | succ depth ih =>
    rw [openAvoiding] at found
    split at found
    · simp at found
    · next free => exact resolve_mono states root (mounts path free) (fun _ => ih) found

end Frame

/-- A creation or a write at a path. -/
inductive Later where
  | create (path : Str) (fileType : FileType)
  | write (path : Str) (offset : Nat) (buf : List UInt8)

def Later.path : Later → Str
  | .create path _ => path
  | .write path _ _ => path

section Law

variable {F : Type} {σ : F → Type} [DecidableEq F] (ops : (f : F) → FileSystem (σ f))

def Later.perform (v : Vfs F σ) : Later → Vfs F σ
  | .create path fileType => (createInNs ops v NS_ROOT path fileType).2
  | .write path offset buf =>
    match openInNs ops v NS_ROOT path with
    | none => v
    | some node =>
      v.setState node.fs ((ops node.fs).write (v.states node.fs) node.inode offset buf).2

def SameBytes (v v' : Vfs F σ) (f : F) (inode : Nat) : Prop :=
  ∀ offset len, (ops f).read (v'.states f) inode offset len = (ops f).read (v.states f) inode offset len

/-- The same names and bytes are seen below a mount. -/
def SameUnder (v v' : Vfs F σ) (m : Mount F) : Prop :=
  ∀ names, descend ops v' m.fs names = descend ops v m.fs names ∧
    ∀ inode, descend ops v m.fs names = some inode → SameBytes ops v v' m.fs inode

/-- The `mount` at `target` that returned `result` disturbed nothing: paths outside the
    new mount point resolve to the same files, descriptors read the same bytes, the new
    mount is empty, and nothing done below it later shows under a mount there was. -/
structure Undisturbed (w : Files F σ) (target : Str) (result : Int × Files F σ) : Prop where
  paths : ∀ path node,
    openAvoiding ops w.vfs (fun p => result.1 = 0 ∧ AtOrBelow (normaliseMountPath target) p)
      MAX_SYMLINK_DEPTH path = some node →
    ((ops node.fs).stat (w.vfs.states node.fs) node.inode).fileType = .file →
    openInNs ops result.2.vfs NS_ROOT path = some node ∧
      SameBytes ops w.vfs result.2.vfs node.fs node.inode
  descriptors : ∀ fd entry f, w.fds.get fd = some entry → entry.fs = some f →
    result.2.fds.get fd = some entry ∧ SameBytes ops w.vfs result.2.vfs f entry.inode
  empty : ∀ m, result.2.vfs.mounts.root = w.vfs.mounts.root ++ [m] →
    (ops m.fs).readDir (result.2.vfs.states m.fs) (ops m.fs).rootInode = []
  apart : ∀ m, result.2.vfs.mounts.root = w.vfs.mounts.root ++ [m] →
    ∀ later : List Later, (∀ l ∈ later, AtOrBelow m.path l.path) →
      ∀ old ∈ w.vfs.mounts.root,
        SameUnder ops result.2.vfs (later.foldl (Later.perform ops) result.2.vfs) old

variable {ops} {w : Files F σ} {target : Str}

theorem undisturbed_of_mounts {code : Int} {mounts : MountTables F}
    (kept : mounts.root.length ≤ w.vfs.mounts.root.length)
    (same : ∀ path, ¬ (code = 0 ∧ AtOrBelow (normaliseMountPath target) path) →
      mounts.findMountInTable NS_ROOT path = w.vfs.mounts.findMountInTable NS_ROOT path) :
    Undisturbed ops w target (code, { w with vfs := { w.vfs with mounts } }) := by
  have notNew : ∀ m, mounts.root ≠ w.vfs.mounts.root ++ [m] := by
    intro m added
    rw [added, length_append, length_singleton] at kept
    omega
  constructor
  · intro path node found _
    have states : ({ w.vfs with mounts } : Vfs F σ).states = w.vfs.states := rfl
    exact ⟨openInNsDepth_of_avoiding states rfl same found, fun _ _ => rfl⟩
  · exact fun _ _ _ stored _ => ⟨stored, fun _ _ => rfl⟩
  · exact fun m added => absurd added (notNew m)
  · exact fun m added => absurd added (notNew m)

end Law

section Tmpfs

variable {G : Type} {τ : G → Type} [DecidableEq G] (others : (g : G) → FileSystem (τ g))
  (find : (fstype source : Str) → Option G)

/-- On every machine whose root is the tmpfs, as `vfs::init` leaves it, whatever its
    mounts, trees and descriptors, the call disturbs nothing. -/
def Undisturbing (admin : Bool) (source target : Str) (flags : Nat) : Prop :=
  ∀ w : Files (FsId G) (FsState τ), w.vfs.mounts.WellMounted →
    (∃ rest, w.vfs.mounts.root = ⟨[SLASH], .tmpfs, 0⟩ :: rest) →
    w.vfs.root = some ⟨.tmpfs, TmpFs.rootInode, false⟩ →
    Undisturbed (fsOps others) w target
      (sysMount others find w admin source target (str "tmpfs") flags)

/-- The call does not get as far as constructing the file system. -/
def StopsEarly (admin : Bool) (target : Str) (flags : Nat) : Prop :=
  admin = false ∨ flags &&& bnot MS_SUPPORTED ≠ 0 ∨ target = [] ∨ flags &&& MS_REMOUNT ≠ 0

variable {others find} {admin : Bool} {source target : Str} {flags : Nat}
variable {w : Files (FsId G) (FsState τ)}

theorem undisturbed_remount (mounted : w.vfs.mounts.WellMounted) :
    Undisturbed (fsOps others) w target
      (if (w.vfs.mounts.umountInNs NS_ROOT target).1 then 0 else -1,
        { w with vfs := { w.vfs with mounts := (w.vfs.mounts.umountInNs NS_ROOT target).2 } }) := by
  have own : w.vfs.mounts.Own NS_ROOT := .inl rfl
  rw [umountInNs_eq, if_pos own, table_root rfl]
  cases done : w.vfs.mounts.root.remove (umountTarget target) with
  | none => exact undisturbed_of_mounts (Nat.le_refl _) fun _ _ => rfl
  | some new =>
    refine undisturbed_of_mounts ?_ fun path outside => ?_
    · obtain ⟨first, rest, table, rfl⟩ := remove_eq done
      rw [table]
      exact Nat.succ_le_succ (eraseP_sublist.length_le)
    · exact find_remove mounted.root done fun below => outside ⟨rfl, below⟩

theorem sysMount_tmpfs (w : Files (FsId G) (FsState τ)) :
    sysMount others find w admin source target (str "tmpfs") flags =
      if admin = false ∨ flags &&& bnot MS_SUPPORTED ≠ 0 ∨ target = [] then (-1, w)
      else if flags &&& MS_REMOUNT ≠ 0 then
        (if (w.vfs.mounts.umountInNs NS_ROOT target).1 then 0 else -1,
          { w with vfs := { w.vfs with mounts := (w.vfs.mounts.umountInNs NS_ROOT target).2 } })
      else attach others (constructTmpfs w) .tmpfs target flags := by
  have some : (str "tmpfs").isEmpty = false := by decide +kernel
  have short : ¬ 32 < (str "tmpfs").length := by decide +kernel
  have differs : (str "tmpfs" == str "ext2") = false := by decide +kernel
  unfold sysMount
  by_cases notAdmin : admin = false
  · rw [if_pos (by rw [notAdmin]; rfl), if_pos (.inl notAdmin)]
  · rw [if_neg (by simpa using notAdmin)]
    by_cases unsupported : flags &&& bnot MS_SUPPORTED ≠ 0
    · rw [if_pos unsupported, if_pos (.inr (.inl unsupported))]
    · rw [if_neg unsupported, some, Bool.false_or, differs, Bool.false_and]
      by_cases empty : target = []
      · rw [if_pos (isEmpty_iff.mpr empty), if_pos (.inr (.inr empty))]
      · have passed : ¬ (admin = false ∨ flags &&& bnot MS_SUPPORTED ≠ 0 ∨ target = []) :=
          not_or.mpr ⟨notAdmin, not_or.mpr ⟨unsupported, empty⟩⟩
        rw [if_neg (mt List.isEmpty_iff.mp empty), if_neg short, if_neg Bool.false_ne_true,
          if_pos rfl, if_neg passed]

theorem undisturbing_of_stopsEarly (stops : StopsEarly admin target flags) :
    Undisturbing others find admin source target flags := by
  intro w mounted _ _
  rw [sysMount_tmpfs]
  split
  · exact undisturbed_of_mounts (Nat.le_refl _) fun _ _ => rfl
  · next passed =>
    rw [if_pos]
    · exact undisturbed_remount mounted
    · rcases stops with notAdmin | unsupported | empty | remount
      · exact absurd (.inl notAdmin) passed
      · exact absurd (.inr (.inl unsupported)) passed
      · exact absurd (.inr (.inr empty)) passed
      · exact remount

theorem sysMount_constructs (w : Files (FsId G) (FsState τ)) (constructs : ¬ StopsEarly admin target flags) :
    sysMount others find w admin source target (str "tmpfs") flags =
      attach others (constructTmpfs w) .tmpfs target flags := by
  simp only [StopsEarly, not_or] at constructs
  obtain ⟨isAdmin, supported, given, mount⟩ := constructs
  rw [sysMount_tmpfs, if_neg (by simp [isAdmin, supported, given]), if_neg mount]

end Tmpfs

section Machines

variable {G : Type} {τ : G → Type} [DecidableEq G] {others : (g : G) → FileSystem (τ g)}
  {find : (fstype source : Str) → Option G} (states : (g : G) → τ g)
variable {admin readOnly : Bool} {source target point path part mountPrefix : Str} {flags : Nat}
variable {F : Type} {σ : F → Type} {ops : (f : F) → FileSystem (σ f)} {v : Vfs F σ}
  {restart : Str → Option (VfsNode F)} {n : UInt8} {inode next : Nat} {tail done : List Str} {f : F}

def withTree (tree : TmpFs) : (f : FsId G) → FsState τ f
  | .tmpfs => tree
  | .other g => states g

/-- A machine after `vfs::init`, with a tree in the tmpfs. -/
def bare (tree : TmpFs) : Files (FsId G) (FsState τ) where
  vfs :=
    { mounts := MountTables.init .tmpfs
      root := some ⟨.tmpfs, TmpFs.rootInode, false⟩
      states := withTree states tree }

/-- A tree with the files `a` and `b`, and no room for more. -/
def crowded : TmpFs :=
  { (TmpFs.fileSystem.create (TmpFs.fileSystem.create TmpFs.boot.new 0 [97] .file).2 0 [98] .file).2 with
    nodeCount := MAX_NODES, bound := Nat.le_refl _ }

theorem create_crowded {fs : TmpFs} (full : fs.nodeCount = MAX_NODES) (parent : Nat) (name : Str)
    (fileType : FileType) : (fileSystem.create fs parent name fileType).2 = fs := by
  have noRoom : fs.allocNode = none := by
    rw [allocNode, dif_neg]
    rw [full]
    exact Nat.lt_irrefl _
  show ((fs.create parent name fileType).getD (none, fs)).2 = fs
  unfold TmpFs.create TmpFs.insert
  split
  · rfl
  · rfl
  · rw [noRoom]
    rfl

theorem readDir_new (fs : TmpFs) : fs.new.readDir rootInode = [] := by
  unfold readDir
  split
  · next known =>
    rfl
  · rfl

theorem lookup_new (fs : TmpFs) (name : Str) : fileSystem.lookup fs.new rootInode name = none := by
  show lookupIn (fs.new.readDir rootInode) name = none
  rw [readDir_new]
  rfl

theorem resolve_top {m : Mount F}
    (found : v.mounts.findMountInTable NS_ROOT [SLASH, n] = some m) (root : m.path = [SLASH])
    (name : segments [SLASH, n] = some [[n]]) :
    resolve ops v NS_ROOT true restart [SLASH, n] =
      walk ops v m.fs (m.flags &&& MS_RDONLY != 0) [SLASH] true restart [] (ops m.fs).rootInode [[n]] := by
  have whole : relativePath [SLASH, n] [SLASH] = [SLASH, n] := rfl
  unfold resolve
  rw [if_neg (by simp), found]
  dsimp only
  rw [root, whole, if_neg (by simp), name]

theorem attach_crowded (others : (g : G) → FileSystem (τ g)) {w : Files (FsId G) (FsState τ)}
    (full : (w.vfs.states .tmpfs).nodeCount = MAX_NODES) :
    (attach others (constructTmpfs w) .tmpfs target flags).2.vfs.states .tmpfs =
      (w.vfs.states .tmpfs).new := by
  have built : (constructTmpfs w).vfs.states .tmpfs = (w.vfs.states .tmpfs).new :=
    states_setState ..
  unfold attach
  split
  · exact built
  · show (createDirInNs (fsOps others) (constructTmpfs w).vfs NS_ROOT target).2.states .tmpfs = _
    unfold createDirInNs createInNs onParent
    split
    · exact built
    · split
      · exact built
      · next node found =>
        obtain ⟨f, inode, readOnly⟩ := node
        cases f with
        | tmpfs =>
          refine (states_setState ..).trans ?_
          exact @create_crowded (w.vfs.states .tmpfs).new full _ _ _
        | other g =>
          have apart : (.tmpfs : FsId G) ≠ .other g := by simp
          exact (states_setState_of_ne apart ..).trans built

theorem attach_bare (others : (g : G) → FileSystem (τ g)) (tree : TmpFs) (flags : Nat)
    (fits : ¬ (target.isEmpty || MAX_INTERNED_LEN < target.length) = true) :
    (attach others (constructTmpfs (bare states tree)) .tmpfs target flags).1 = 0 ∧
      (attach others (constructTmpfs (bare states tree)) .tmpfs target flags).2.vfs.mounts.root =
        [⟨[SLASH], .tmpfs, 0⟩, ⟨normaliseMountPath target, .tmpfs, mountFlagsFromSyscall flags⟩] := by
  have made : (createDirInNs (fsOps others) (constructTmpfs (bare states tree)).vfs NS_ROOT target).2.mounts =
      init .tmpfs := by
    unfold createDirInNs createInNs onParent
    split
    · rfl
    · split <;> rfl
  unfold attach
  rw [if_neg fits]
  dsimp only
  rw [made]
  exact ⟨rfl, rfl⟩

theorem eq_of_atOrBelow (inner : point ≠ [SLASH])
    (below : AtOrBelow point [SLASH, n]) (nonempty : point ≠ []) : point = [SLASH, n] := by
  rw [AtOrBelow, if_neg inner] at below
  rcases below with same | ⟨rest, longer⟩
  · exact same.symm
  · cases point with
    | nil => exact absurd rfl nonempty
    | cons b point =>
      obtain ⟨rfl, tail⟩ := cons.inj longer
      cases point with
      | nil => exact absurd rfl inner
      | cons c point =>
        have lengths := congrArg length tail
        simp at lengths

theorem find_root_after (tree : TmpFs) (absolute : path.head? = some SLASH)
    (outside : ¬ ((attach others (constructTmpfs (bare states tree)) .tmpfs target flags).1 = 0 ∧
      AtOrBelow (normaliseMountPath target) path)) :
    (attach others (constructTmpfs (bare states tree)) .tmpfs target flags).2.vfs.mounts.findMountInTable
      NS_ROOT path = some ⟨[SLASH], .tmpfs, 0⟩ := by
  have heavy : mountPrefixLen path [SLASH] = 1 := by
    have under : AtOrBelow [SLASH] path := by rwa [AtOrBelow, if_pos rfl]
    rw [mountPrefixLen_eq (.inl rfl), if_pos under]
    rfl
  have alone : find [⟨[SLASH], .tmpfs, 0⟩] path =
      some (⟨[SLASH], .tmpfs, 0⟩ : Mount (FsId G)) := by
    simp [find, pick, scan, heavy]
  by_cases fits : (target.isEmpty || MAX_INTERNED_LEN < target.length) = true
  · rw [attach, if_pos fits]
    exact alone
  · obtain ⟨code, mounts⟩ := attach_bare states others tree flags fits
    have light : mountPrefixLen path (normaliseMountPath target) = 0 := by
      rw [mountPrefixLen_eq (normal_normalise target), if_neg fun below => outside ⟨code, below⟩]
    rw [findMountInTable_eq, table_root rfl, mounts, find, ← (pick_filter _ _).1]
    simpa [heavy, light, find] using alone

theorem walk_absent (absent : (ops f).lookup (v.states f) inode part = none) :
    walk ops v f readOnly mountPrefix true restart done inode (part :: tail) = none := by
  rw [walk, absent]

theorem walk_present (present : (ops f).lookup (v.states f) inode part = some next)
    (file : ((ops f).stat (v.states f) next).fileType = .file) :
    walk ops v f readOnly mountPrefix true restart done inode [part] = some ⟨f, next, readOnly⟩ := by
  rw [walk, present]
  simp [file, walk]

theorem open_bare_after (name : segments [SLASH, n] = some [[n]])
    (outside : ¬ ((attach others (constructTmpfs (bare states crowded)) .tmpfs target flags).1 = 0 ∧
      AtOrBelow (normaliseMountPath target) [SLASH, n])) :
    openInNs (fsOps others)
      (attach others (constructTmpfs (bare states crowded)) .tmpfs target flags).2.vfs NS_ROOT
      [SLASH, n] = none := by
  rw [openInNs, MAX_SYMLINK_DEPTH, openInNsDepth,
    resolve_top (find_root_after states crowded rfl outside) rfl name]
  refine walk_absent ?_
  rw [attach_crowded others rfl]
  exact lookup_new crowded [n]

omit [DecidableEq G] in
theorem open_bare_before {blocked : Str → Prop} [DecidablePred blocked]
    (name : segments [SLASH, n] = some [[n]]) (free : ¬ blocked [SLASH, n])
    (present : fileSystem.lookup crowded rootInode [n] = some inode)
    (file : (crowded.stat inode).fileType = .file) :
    openAvoiding (fsOps others) (bare states crowded).vfs blocked MAX_SYMLINK_DEPTH [SLASH, n] =
      some ⟨.tmpfs, inode, false⟩ := by
  have found : (bare states crowded).vfs.mounts.findMountInTable NS_ROOT [SLASH, n] =
      some ⟨[SLASH], .tmpfs, 0⟩ := rfl
  have there : ((fsOps others .tmpfs).stat ((bare states crowded).vfs.states .tmpfs) inode).fileType =
      .file := file
  rw [MAX_SYMLINK_DEPTH, openAvoiding, if_neg free, resolve_top found rfl name]
  have writable : (0 &&& MS_RDONLY != 0) = false := by decide
  refine (walk_present present there).trans ?_
  rw [writable]

theorem disturbed_of_outside (constructs : ¬ StopsEarly admin target flags) (inode : Nat)
    (name : segments [SLASH, n] = some [[n]]) (present : fileSystem.lookup crowded rootInode [n] = some inode)
    (file : (crowded.stat inode).fileType = .file)
    (outside : ¬ ((attach others (constructTmpfs (bare states crowded)) .tmpfs target flags).1 = 0 ∧
      AtOrBelow (normaliseMountPath target) [SLASH, n])) :
    ¬ Undisturbed (fsOps others) (bare states crowded) target
      (sysMount others find (bare states crowded) admin source target (str "tmpfs") flags) := by
  rw [sysMount_constructs _ constructs]
  intro undisturbed
  have kept := undisturbed.paths _ _ (open_bare_before states name outside present file) file
  cases (open_bare_after states name outside).symm.trans kept.1

theorem parentDir_of_root (root : normaliseMountPath target = [SLASH]) : parentDir target = none := by
  have trimmed : trimEnd target = [] := by
    by_contra some
    unfold normaliseMountPath at root
    rw [if_neg (by simpa using some)] at root
    split at root
    · have again := trimEnd_trimEnd target
      rw [root] at again
      cases again
    · exact some (cons.inj root).2
  simp only [parentDir, trimmed, isEmpty_nil, if_true]

theorem descend_one (ops : (f : F) → FileSystem (σ f)) (v : Vfs F σ) (f : F)
    (name : Str) : descend ops v f [name] = (ops f).lookup (v.states f) (ops f).rootInode name := by
  rw [descend, foldlM_cons]
  cases (ops f).lookup (v.states f) (ops f).rootInode name with
  | none => rfl
  | some _ => rfl

theorem disturbed_of_root (constructs : ¬ StopsEarly admin target flags)
    (fits : ¬ (target.isEmpty || MAX_INTERNED_LEN < target.length) = true)
    (root : normaliseMountPath target = [SLASH]) :
    ¬ Undisturbed (fsOps others) (bare states boot.new) target
      (sysMount others find (bare states boot.new) admin source target (str "tmpfs") flags) := by
  rw [sysMount_constructs _ constructs]
  intro undisturbed
  obtain ⟨_, mounts⟩ := attach_bare states others boot.new flags fits
  generalize after : attach others (constructTmpfs (bare states boot.new)) .tmpfs target flags =
    result at undisturbed mounts
  have made : createDirInNs (fsOps others) (constructTmpfs (bare states boot.new)).vfs NS_ROOT
      target = (false, (constructTmpfs (bare states boot.new)).vfs) := by
    rw [createDirInNs, createInNs, onParent, parentDir_of_root root]
  rw [attach, if_neg fits] at after
  rw [made] at after
  have tree : result.2.vfs.states .tmpfs = boot.new.new := by
    rw [← after]
    exact states_setState (bare states boot.new).vfs (.tmpfs : FsId G) boot.new.new
  have top : openInNs (fsOps others) result.2.vfs NS_ROOT [SLASH] = some ⟨.tmpfs, 0, false⟩ := by
    rw [← after]
    rfl
  have shown := (undisturbed.apart _ mounts [.create [SLASH, 120] .file]
    (by simp [root, Later.path, AtOrBelow]) ⟨[SLASH], .tmpfs, 0⟩ (mem_singleton.mpr rfl) [[120]]).1
  have above : parentDir [SLASH, 120] = some [SLASH] := by decide
  have name : fileName [SLASH, 120] = [120] := by decide
  rw [foldl_cons, foldl_nil, Later.perform, createInNs, onParent, above] at shown
  dsimp only at shown
  rw [top] at shown
  rw [descend_one, descend_one, states_setState, tree, name] at shown
  have absent : fileSystem.lookup boot.new.new 0 [120] = none := by decide +kernel
  have present : fileSystem.lookup (fileSystem.create boot.new.new 0 [120] .file).2 0
      [120] = some 1 := by decide +kernel
  cases (present.symm.trans shown).trans absent

include states in
theorem stopsEarly_of_undisturbing (undisturbing : Undisturbing others find admin source target flags) :
    StopsEarly admin target flags := by
  by_contra constructs
  have start : ∀ tree, (bare states tree).vfs.mounts.WellMounted ∧
      ∃ rest, (bare states tree).vfs.mounts.root = ⟨[SLASH], .tmpfs, 0⟩ :: rest := fun tree =>
    ⟨init_wellMounted _, [], rfl⟩
  have files : ∀ tree, Undisturbed (fsOps others) (bare states tree) target
      (sysMount others find (bare states tree) admin source target (str "tmpfs") flags) := fun tree =>
    undisturbing _ (start tree).1 (start tree).2 rfl
  have point := (normal_normalise target).ne_nil
  -- one of the two files is outside the new mount, unless that is at the root
  by_cases coversA : (attach others (constructTmpfs (bare states crowded)) .tmpfs target flags).1 = 0 ∧
      AtOrBelow (normaliseMountPath target) [SLASH, 97]
  · by_cases coversB : (attach others (constructTmpfs (bare states crowded)) .tmpfs target flags).1 = 0 ∧
        AtOrBelow (normaliseMountPath target) [SLASH, 98]
    · have root : normaliseMountPath target = [SLASH] := by
        by_contra inner
        have a := eq_of_atOrBelow inner coversA.2 point
        have b := eq_of_atOrBelow inner coversB.2 point
        cases a.symm.trans b
      refine disturbed_of_root states constructs ?_ root (files _)
      intro long
      have code : (-1 : Int) = 0 := by
        rw [← coversA.1, attach, if_pos long]
      cases code
    · exact disturbed_of_outside states constructs 2 (by decide) (by decide +kernel)
        (by decide +kernel) coversB (files _)
  · exact disturbed_of_outside states constructs 1 (by decide) (by decide +kernel)
      (by decide +kernel) coversA (files _)

end Machines

/-- A `mount` of type tmpfs disturbs nothing, whatever the machine, exactly if it stops
    before the file system is constructed. -/
theorem undisturbing_iff_stopsEarly {G : Type} {τ : G → Type} [DecidableEq G]
    (others : (g : G) → FileSystem (τ g)) (find : (fstype source : Str) → Option G)
    (states : (g : G) → τ g) (admin : Bool) (source target : Str) (flags : Nat) :
    Undisturbing others find admin source target flags ↔ StopsEarly admin target flags :=
  ⟨stopsEarly_of_undisturbing states, undisturbing_of_stopsEarly⟩

def noOthers (g : Empty) : FileSystem PUnit := g.elim

/-- A booted machine with the file `/f` that holds `hi`. -/
def booted : Files (FsId Empty) (FsState fun _ => PUnit) :=
  bare (fun _ => ⟨⟩)
    (TmpFs.fileSystem.write (TmpFs.fileSystem.create TmpFs.boot.new 0 (str "f") .file).2 1 0 (str "hi")).2

/-- The same machine after a tmpfs is mounted at `/mnt`. -/
def mountedAtMnt : Int × Files (FsId Empty) (FsState fun _ => PUnit) :=
  sysMount noOthers (fun _ _ => none) booted true [] (str "/mnt") (str "tmpfs") 0

/-- The mount succeeds; `/f` is gone, the new mount holds its own directory, and a file
    made below it shows in the root. -/
theorem mount_empties_root :
    openInNs (fsOps noOthers) booted.vfs NS_ROOT (str "/f") = some ⟨.tmpfs, 1, false⟩ ∧
    TmpFs.read (booted.vfs.states .tmpfs) 1 0 8 = some (str "hi") ∧
    mountedAtMnt.1 = 0 ∧
    openInNs (fsOps noOthers) mountedAtMnt.2.vfs NS_ROOT (str "/f") = none ∧
    (TmpFs.readDir (mountedAtMnt.2.vfs.states .tmpfs) TmpFs.rootInode).map DirEntry.name = [str "mnt"] ∧
    openInNs (fsOps noOthers)
      (Later.perform (fsOps noOthers) mountedAtMnt.2.vfs (.create (str "/mnt/x") .file)) NS_ROOT
      (str "/x") = some ⟨.tmpfs, 3, false⟩ := by
  decide +kernel

end Zenus.Sys
