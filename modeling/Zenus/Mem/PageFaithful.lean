import Zenus.Mem.PageClone

/-! # What a cloned address space translates

The permissions of a page are those of the whole path to it: it is writable and
user accessible if every word on the path is, and not executable if any word on
the path says so.  The copy of a path keeps the low flag bits of every word and
drops the others, except for read-only pages, whose words are shared.
-/

namespace Zenus.Mem

open Lib.Radix List FrameAllocator

namespace Machine

/-- The words of the tables on the path to a page, and the word that maps it. -/
def walkPath (mem : Nat → Nat → Nat) (virt : Nat) : Nat → Nat → Option (List Nat × Nat)
  | 0, table =>
    let entry := mem table (tableIndex 0 virt)
    if entry &&& PRESENT = 0 then none else some ([], entry)
  | level + 1, table =>
    let entry := mem table (tableIndex (level + 1) virt)
    if entry &&& PRESENT = 0 then none
    else if entry &&& HUGE_PAGE ≠ 0 then some ([], entry)
    else (walkPath mem virt level (frameAddr entry)).map fun (path, leaf) => (entry :: path, leaf)

@[ext]
structure Perms where
  writable : Bool
  user : Bool
  noExecute : Bool
  deriving DecidableEq, Repr

/-- The permissions of a page from the words on its path. -/
def permsOf (words : List Nat) : Perms where
  writable := words.all fun w => w &&& WRITABLE != 0
  user := words.all fun w => w &&& USER_ACCESSIBLE != 0
  noExecute := words.any fun w => w &&& NO_EXECUTE != 0

/-- The permissions of the page at an address, if it is mapped. -/
def permissions (m : Machine) (cr3 virt : Nat) : Option Perms :=
  (walkPath m.mem virt 3 (pageBase cr3)).map fun (path, leaf) => permsOf (leaf :: path)

/-- No huge pages: every table word that is present points to a table. -/
def SmallPages (mem : Nat → Nat → Nat) (root : Nat) : Prop :=
  ∀ i < 256, All mapped (fun l e => 0 < l → e &&& PRESENT ≠ 0 → e &&& HUGE_PAGE = 0) mem 3 (mem root i)

instance (mem : Nat → Nat → Nat) (root : Nat) : Decidable (SmallPages mem root) :=
  Nat.decidableBallLT 256 fun i _ => All mapped _ mem 3 (mem root i)

/-- The copy reproduces what the source translates, page by page, and nothing
    outside it was touched. -/
structure Faithful (m m' : Machine) (cr3 cr3' : Nat) : Prop where
  domain : ∀ virt < 2 ^ 47, (m'.virtToPhysRaw cr3' virt).isSome = (m.virtToPhysRaw cr3 virt).isSome
  bytes : ∀ virt < 2 ^ 47, ∀ p p', m.virtToPhysRaw cr3 virt = some p →
    m'.virtToPhysRaw cr3' virt = some p' → ∀ i, m'.mem (frameAddr p') i = m.mem (frameAddr p) i
  perms : ∀ virt < 2 ^ 47, m'.permissions cr3' virt = m.permissions cr3 virt
  apart : ∀ virt < 2 ^ 47, ∀ p' perms, m'.virtToPhysRaw cr3' virt = some p' →
    m'.permissions cr3' virt = some perms → perms.writable = true →
      frameAddr p' ∉ userFrames m.mem (pageBase cr3)
  unchanged : ∀ f ∈ userFrames m.mem (pageBase cr3), m'.mem f = m.mem f
  kernel : ∀ i, 256 ≤ i → i < 512 → m'.mem (pageBase cr3') i = m.mem (pageBase m.kernelCr3) i

/-! ## Paths of the copy -/

variable {mem mem' : Nat → Nat → Nat} {virt l t c : Nat} {path path' : List Nat}
  {leaf w w' flag leaf' root e e' : Nat}

variable (small : All mapped (fun l e => 0 < l → e &&& PRESENT ≠ 0 → e &&& HUGE_PAGE = 0) mem l
  (mem t (tableIndex l virt)))

include small in
theorem virtWalk_eq :
    virtWalk mem virt l t =
      (walkPath mem virt l t).map fun (_, leaf) => frameAddr leaf ||| (virt &&& 0xFFF) := by
  induction l generalizing t with
  | zero =>
    simp only [virtWalk, walkPath]
    split_ifs <;> rfl
  | succ l ih =>
    simp only [virtWalk, walkPath]
    split_ifs with absent huge
    · rfl
    · exact absurd (small.1 (Nat.succ_pos l) absent) huge
    · rw [ih (small.2 _ (tableOf_some absent) _ (tableIndex_lt l virt)), Option.map_map]
      rfl

/-- The word of a table on the path and its copy. -/
def LinkCopy (w w' : Nat) : Prop := ∃ p, IsFrame p ∧ w' = p ||| (w &&& 0xFFF)

def LeafCopy (mem mem' : Nat → Nat → Nat) (w w' : Nat) : Prop :=
  (w &&& WRITABLE ≠ 0 ∧ ∃ p, IsFrame p ∧ w' = p ||| (w &&& 0xFFF) ∧ mem' p = mem (frameAddr w)) ∨
    (w &&& WRITABLE = 0 ∧ w' = w)

/-- A path below the word `e` and the copy of it below `e'`. -/
structure PathCopy (mem mem' : Nat → Nat → Nat) (l e e' : Nat) (path : List Nat) (leaf : Nat)
    (path' : List Nat) (leaf' : Nat) : Prop where
  links : List.Forall₂ LinkCopy path path'
  page : LeafCopy mem mem' leaf leaf'
  present : leaf &&& PRESENT ≠ 0
  inSource : frameAddr leaf ∈ hang mapped mem l e
  inCopy : leaf &&& WRITABLE ≠ 0 → frameAddr leaf' ∈ hang owned mem' l e'

include small in
theorem walkPath_copy (copy : CopyEntry mem mem' l (mem t (tableIndex l virt)) (mem' c (tableIndex l virt))) :
    (walkPath mem virt l t = none ∧ walkPath mem' virt l c = none) ∨
    ∃ path leaf path' leaf', walkPath mem virt l t = some (path, leaf) ∧
      walkPath mem' virt l c = some (path', leaf') ∧
      PathCopy mem mem' l (mem t (tableIndex l virt)) (mem' c (tableIndex l virt)) path leaf path' leaf' := by
  induction l generalizing t c with
  | zero =>
    unfold walkPath
    generalize mem t (tableIndex 0 virt) = e at copy small ⊢
    generalize mem' c (tableIndex 0 virt) = e' at copy ⊢
    by_cases absent : e &&& PRESENT = 0
    · rw [copy.1 absent]
      exact .inl ⟨if_pos absent, rfl⟩
    · have inSource : frameAddr e ∈ hang mapped mem 0 e := by
        rw [hang_zero, show mapped.page e = some _ from tableOf_some absent]
        exact mem_singleton_self _
      refine .inr ⟨[], e, [], e', if_neg absent, ?_⟩
      by_cases readOnly : e &&& WRITABLE = 0
      · cases copy.2.2 absent readOnly
        exact ⟨if_neg absent, .nil, .inr ⟨readOnly, rfl⟩, absent, inSource, fun no => absurd readOnly no⟩
      · obtain ⟨p, frame, rfl, contents⟩ := copy.2.1 absent readOnly
        refine ⟨if_neg (by rwa [present_or_low frame]), .nil,
          .inl ⟨readOnly, p, frame, rfl, contents⟩, absent, inSource, fun _ => ?_⟩
        have page : owned.page (p ||| (e &&& 0xFFF)) = some p :=
          (if_neg (by rwa [writable_or_low frame])).trans (tableOf_or_low frame absent)
        rw [hang_zero, page, frameAddr_or_low frame]
        exact mem_singleton_self _
  | succ l ih =>
    unfold walkPath
    generalize mem t (tableIndex (l + 1) virt) = e at copy small ⊢
    generalize mem' c (tableIndex (l + 1) virt) = e' at copy ⊢
    by_cases absent : e &&& PRESENT = 0
    · rw [copy.1 absent]
      exact .inl ⟨if_pos absent, rfl⟩
    · obtain ⟨p, frame, rfl, below⟩ := copy.2 absent
      have notHuge := small.1 (Nat.succ_pos l) absent
      have index := tableIndex_lt l virt
      rw [if_neg absent, if_neg (by simpa using notHuge), if_neg (by rwa [present_or_low frame]),
        if_neg (by rw [or_low_and frame e (by decide) (by decide)]; simpa using notHuge),
        frameAddr_or_low frame]
      rcases ih (small.2 _ (tableOf_some absent) _ index) (below _ index) with
        ⟨none, none'⟩ | ⟨path, leaf, path', leaf', found, found', rest⟩
      · rw [none, none']
        exact .inl ⟨rfl, rfl⟩
      · rw [found, found']
        refine .inr ⟨e :: path, leaf, _, leaf', rfl, rfl, .cons ⟨p, frame, rfl⟩ rest.links,
          rest.page, rest.present, ?_, fun writable => ?_⟩
        · rw [hang_some (tableOf_some absent)]
          exact mem_append_left _ (hang_sub_frames index _ rest.inSource)
        · rw [hang_some (tableOf_or_low frame absent)]
          exact mem_append_left _
            (hang_sub_frames index _ (rest.inCopy writable))

/-! ## Permissions of the copy -/

theorem LinkCopy.bits (link : LinkCopy w w') :
    w' &&& WRITABLE = w &&& WRITABLE ∧ w' &&& USER_ACCESSIBLE = w &&& USER_ACCESSIBLE ∧
      w' &&& NO_EXECUTE = 0 := by
  obtain ⟨p, frame, rfl⟩ := link
  refine ⟨writable_or_low frame w, or_low_and frame w (by decide) (by decide), ?_⟩
  rw [Nat.and_or_distrib_right, frame.and, Nat.and_assoc,
    show 0x000FFFFFFFFFF000 &&& NO_EXECUTE = 0 by decide, show 0xFFF &&& NO_EXECUTE = 0 by decide]
  simp

theorem LeafCopy.bits (leaf : LeafCopy mem mem' w w') :
    w' &&& WRITABLE = w &&& WRITABLE ∧ w' &&& USER_ACCESSIBLE = w &&& USER_ACCESSIBLE ∧
      (w' &&& NO_EXECUTE ≠ 0 ↔ w &&& WRITABLE = 0 ∧ w &&& NO_EXECUTE ≠ 0) := by
  rcases leaf with ⟨writable, p, frame, rfl, _⟩ | ⟨readOnly, rfl⟩
  · obtain ⟨w, u, x⟩ := LinkCopy.bits ⟨p, frame, rfl⟩
    exact ⟨w, u, iff_of_false (fun no => no x) (fun no => writable no.1)⟩
  · exact ⟨rfl, rfl, (and_iff_right readOnly).symm⟩

variable (links : List.Forall₂ LinkCopy path path')

include links

theorem links_all (same : ∀ w w', LinkCopy w w' → w' &&& flag = w &&& flag) :
    path'.all (fun w => w &&& flag != 0) = path.all (fun w => w &&& flag != 0) := by
  induction links with
  | nil => rfl
  | cons link _ ih => rw [all_cons, all_cons, same _ _ link, ih]

theorem links_executable : path'.any (fun w => w &&& NO_EXECUTE != 0) = false := by
  induction links with
  | nil => rfl
  | cons link _ ih =>
    rw [any_cons, link.bits.2.2, ih]
    rfl

/-- A page that the copy can only keep executable if it was executable before: if
    anything on its path forbids execution, the word of a read-only page does. -/
def ExecuteKept (path : List Nat) (leaf : Nat) : Prop :=
  (∃ w ∈ leaf :: path, w &&& NO_EXECUTE ≠ 0) → leaf &&& WRITABLE = 0 ∧ leaf &&& NO_EXECUTE ≠ 0

theorem permsOf_copy (page : LeafCopy mem mem' leaf leaf') :
    permsOf (leaf' :: path') = permsOf (leaf :: path) ↔ ExecuteKept path leaf := by
  obtain ⟨sameW, sameU, sameX⟩ := page.bits
  have writable := links_all links fun w w' link => link.bits.1
  have user := links_all links fun w w' link => link.bits.2.1
  have only : (permsOf (leaf' :: path')).noExecute = true ↔ leaf' &&& NO_EXECUTE ≠ 0 := by
    simp only [permsOf, any_cons, links_executable links, Bool.or_false, bne_iff_ne]
  have any : (permsOf (leaf :: path)).noExecute = true ↔ ∃ w ∈ leaf :: path, w &&& NO_EXECUTE ≠ 0 := by
    simp only [permsOf, any_eq_true, bne_iff_ne]
  rw [Perms.ext_iff, Bool.eq_iff_iff (b := (permsOf (leaf :: path)).noExecute), only, any, sameX, ExecuteKept]
  constructor
  · rintro ⟨_, _, execute⟩
    exact execute.mpr
  · intro kept
    refine ⟨?_, ?_, fun leafX => ⟨leaf, .head _, leafX.2⟩, kept⟩
    · simp only [permsOf, all_cons, sameW, writable]
    · simp only [permsOf, all_cons, sameU, user]

omit links

/-! ## When a clone is faithful -/

/-- The PML4 entries the clone gives its kernel half are those of the other half of
    the kernel's PML4. -/
def KernelHalvesAgree (m : Machine) : Prop :=
  ∀ i < 256, m.mem (pageBase m.kernelCr3) i = m.mem (pageBase m.kernelCr3) (i + 256)

/-- Every user page keeps its `NO_EXECUTE` permission in a copy. -/
def ExecuteKeptBelow (mem : Nat → Nat → Nat) (root : Nat) : Prop :=
  ∀ virt < 2 ^ 47, ∀ path leaf, walkPath mem virt 3 root = some (path, leaf) → ExecuteKept path leaf

theorem executeKeptBelow_of_forall (nothing : ∀ f i, mem f i &&& NO_EXECUTE = 0) :
    ExecuteKeptBelow mem root := by
  have words : ∀ virt l t path leaf, walkPath mem virt l t = some (path, leaf) →
      ∀ w ∈ leaf :: path, w &&& NO_EXECUTE = 0 := by
    intro virt l
    induction l with
    | zero =>
      intro t path leaf found
      simp only [walkPath] at found
      split_ifs at found
      cases found
      simpa using nothing t _
    | succ l ih =>
      intro t path leaf found
      simp only [walkPath] at found
      split_ifs at found
      · cases found
        simpa using nothing t _
      · obtain ⟨⟨rest, leaf'⟩, below, same⟩ := Option.map_eq_some_iff.mp found
        cases same
        have ih := ih _ _ _ below
        intro w member
        rcases member with _ | ⟨_, member⟩
        · exact ih _ (.head _)
        · rcases member with _ | ⟨_, member⟩
          · exact nothing t _
          · exact ih w (.tail _ member)
  rintro virt _ path leaf found ⟨w, member, forbidden⟩
  exact absurd (words virt 3 root path leaf found w member) forbidden

theorem copyEntry_small (copy : CopyEntry mem mem' l e e')
    (small : All mapped (fun l e => 0 < l → e &&& PRESENT ≠ 0 → e &&& HUGE_PAGE = 0) mem l e) :
    All mapped (fun l e => 0 < l → e &&& PRESENT ≠ 0 → e &&& HUGE_PAGE = 0) mem' l e' := by
  refine copy.all (fun _ _ no => absurd rfl no) ?_ small
  intro l p e frame present small upper _
  rw [or_low_and frame e (by decide) (by decide)]
  exact small upper present

variable {m m' : Machine} {cr3 cr3' p low : Nat}

variable (cloned : ClonedSpace m m' (pageBase cr3) (pageBase cr3'))

include cloned

theorem ClonedSpace.translate (small : SmallPages m.mem (pageBase cr3)) (user : virt < 2 ^ 47) :
    (m.virtToPhysRaw cr3 virt = none ∧ m'.virtToPhysRaw cr3' virt = none ∧
      walkPath m.mem virt 3 (pageBase cr3) = none ∧
      m'.permissions cr3' virt = m.permissions cr3 virt) ∨
    ∃ path leaf path' leaf', walkPath m.mem virt 3 (pageBase cr3) = some (path, leaf) ∧
      m.virtToPhysRaw cr3 virt = some (frameAddr leaf ||| (virt &&& 0xFFF)) ∧
      m'.virtToPhysRaw cr3' virt = some (frameAddr leaf' ||| (virt &&& 0xFFF)) ∧
      m.permissions cr3 virt = some (permsOf (leaf :: path)) ∧
      m'.permissions cr3' virt = some (permsOf (leaf' :: path')) ∧
      PathCopy m.mem m'.mem 3 (m.mem (pageBase cr3) (tableIndex 3 virt))
        (m'.mem (pageBase cr3') (tableIndex 3 virt)) path leaf path' leaf' := by
  have index := tableIndex_user user
  have copy := cloned.copy _ index
  simp only [virtToPhysRaw, permissions, virtWalk_eq (small _ index),
    virtWalk_eq (copyEntry_small copy (small _ index))]
  rcases walkPath_copy (small _ index) copy with
    ⟨none, none'⟩ | ⟨path, leaf, path', leaf', found, found', paths⟩
  · rw [none, none']
    exact .inl ⟨rfl, rfl, rfl, rfl⟩
  · rw [found, found']
    exact .inr ⟨path, leaf, path', leaf', rfl, rfl, rfl, rfl, rfl, paths⟩

theorem PathCopy.apart (inUse : ∀ f ∈ userFrames m.mem (pageBase cr3), f ∉ m.fa.avail) (user : virt < 2 ^ 47)
    (paths : PathCopy m.mem m'.mem 3 (m.mem (pageBase cr3) (tableIndex 3 virt))
      (m'.mem (pageBase cr3') (tableIndex 3 virt)) path leaf path' leaf')
    (writable : (permsOf (leaf' :: path')).writable = true) :
    frameAddr leaf' ∉ userFrames m.mem (pageBase cr3) := by
  have leafW : leaf' &&& WRITABLE ≠ 0 := by
    simp only [permsOf, all_cons, Bool.and_eq_true, bne_iff_ne] at writable
    exact writable.1
  rw [paths.page.bits.1] at leafW
  have member := hang_sub_frames (tableIndex_user user) _ (paths.inCopy leafW)
  exact fun shared => inUse _ shared (cloned.fresh _ (mem_append_left _ member)).1

omit cloned in
theorem LeafCopy.contents (page : LeafCopy m.mem m'.mem leaf leaf')
    (same : m'.mem (frameAddr leaf) = m.mem (frameAddr leaf)) :
    m'.mem (frameAddr leaf') = m.mem (frameAddr leaf) := by
  rcases page with ⟨_, p, frame, rfl, copied⟩ | ⟨_, rfl⟩
  · rw [frameAddr_or_low frame, copied]
  · exact same

/-- A clone is faithful exactly when the two halves of the kernel's PML4 agree and no
    page of the source depends on a `NO_EXECUTE` bit that the copy drops. -/
theorem ClonedSpace.faithful_iff (small : SmallPages m.mem (pageBase cr3))
    (inUse : ∀ f ∈ userFrames m.mem (pageBase cr3), f ∉ m.fa.avail) :
    Faithful m m' cr3 cr3' ↔ KernelHalvesAgree m ∧ ExecuteKeptBelow m.mem (pageBase cr3) := by
  have unchanged : ∀ f ∈ userFrames m.mem (pageBase cr3), m'.mem f = m.mem f :=
    fun f member => cloned.keep f (inUse f member)
  constructor
  · intro faithful
    refine ⟨?_, ?_⟩
    · intro i low
      rw [← faithful.kernel (i + 256) (by omega) (by omega), cloned.kernel (i + 256) (by omega),
        Nat.add_sub_cancel]
    · intro virt user path leaf found
      rcases cloned.translate small user with ⟨_, _, none, _⟩ |
        ⟨path₁, leaf₁, path', leaf', found₁, _, _, perms, perms', paths⟩
      · rw [none] at found
        cases found
      · cases (found₁.symm.trans found)
        refine (permsOf_copy paths.links paths.page).mp (Option.some.inj ?_)
        rw [← perms, ← perms', faithful.perms virt user]
  · rintro ⟨halves, executeKept⟩
    refine ⟨?_, ?_, ?_, ?_, unchanged, ?_⟩
    · intro virt user
      rcases cloned.translate small user with ⟨source, copy, _⟩ | ⟨_, _, _, _, _, source, copy, _⟩
      · rw [source, copy]
      · rw [source, copy]
        rfl
    · intro virt user p p' source copy i
      rcases cloned.translate small user with ⟨none, _⟩ |
        ⟨path, leaf, path', leaf', _, found, found', _, _, paths⟩
      · rw [none] at source
        cases source
      · cases found.symm.trans source
        cases found'.symm.trans copy
        have member := hang_sub_frames (tableIndex_user user) _ paths.inSource
        rw [frameAddr_or_low (isFrame_frameAddr leaf), frameAddr_or_low (isFrame_frameAddr leaf'),
          paths.page.contents (unchanged _ (mem_append_left _ member))]
    · intro virt user
      rcases cloned.translate small user with ⟨_, _, _, same⟩ |
        ⟨path, leaf, path', leaf', found, _, _, perms, perms', paths⟩
      · exact same
      · rw [perms, perms']
        exact congrArg some
          ((permsOf_copy paths.links paths.page).mpr (executeKept virt user path leaf found))
    · intro virt user p' perms copy held writable
      rcases cloned.translate small user with ⟨_, none, _⟩ |
        ⟨path, leaf, path', leaf', _, _, found', _, perms', paths⟩
      · rw [none] at copy
        cases copy
      · cases found'.symm.trans copy
        cases perms'.symm.trans held
        rw [frameAddr_or_low (isFrame_frameAddr leaf')]
        exact paths.apart cloned inUse user writable
    · intro i high low
      have agree := halves (i - 256) (by omega)
      rw [Nat.sub_add_cancel high] at agree
      rw [cloned.kernel i high, agree]

omit cloned

/-- A space of 4 KiB pages whose frames are in use, and enough free frames for a copy
    of its tables and writable pages. -/
structure Cloneable (m : Machine) (cr3 : Nat) : Prop where
  wf : m.fa.Wf
  small : SmallPages m.mem (pageBase cr3)
  inUse : ∀ f ∈ userFrames m.mem (pageBase cr3), f ∉ m.fa.avail
  enough : m.fa.Serves ((frames owned m.mem 3 (pageBase cr3) 256).length + 1)

/-- `clone_user_address_space` returns a faithful copy exactly when the kernel's PML4
    repeats its upper half in its lower one and no page of the source depends on a
    `NO_EXECUTE` bit that the copy drops. -/
theorem cloneUserAddressSpace_faithful_iff (m : Machine) (cr3 : Nat) (source : m.Cloneable cr3) :
    (∃ cr3' m', m.cloneUserAddressSpace cr3 = some (some cr3', m') ∧ Faithful m m' cr3 cr3') ↔
      KernelHalvesAgree m ∧ ExecuteKeptBelow m.mem (pageBase cr3) := by
  obtain ⟨wf, small, inUse, enough⟩ := source
  obtain ⟨root, m', run, cloned⟩ := cloneUserAddressSpace_total wf inUse enough
  have base : pageBase (root ||| (cr3 &&& 0b11000)) = root := pageBase_cr3 cloned.frame cr3
  rw [← base] at cloned
  rw [← cloned.faithful_iff small inUse]
  constructor
  · rintro ⟨cr3', m'', run', faithful⟩
    rw [run] at run'
    obtain ⟨same, rfl⟩ := Prod.mk.inj (Option.some.inj run')
    cases same
    exact faithful
  · intro faithful
    exact ⟨_, m', run, faithful⟩

/-! ## A space with one page -/

/-- One megabyte of usable memory above the first. -/
def bootPlan : FrameAllocator.AllocPlanInput where
  memoryMap := [⟨0x100000, 0x100000, 0⟩]
  kernelImageBase := 0
  kernelImageEnd := 0
  bootStackPhys := 0

/-- A space at `0x1000` that maps one page with the word `leaf`, and a kernel PML4 at
    `0x6000` with one table in its upper half and the word `low` in its lower half. -/
def forkMachine (low leaf : Nat) : Machine where
  mem f i :=
    if f = 0x6000 then if i = 256 then 0x7003 else if i = 0 then low else 0
    else if i ≠ 0 then 0
    else if f = 0x1000 then 0x2007
    else if f = 0x2000 then 0x3007
    else if f = 0x3000 then 0x4007
    else if f = 0x4000 then leaf
    else 0
  fa := FrameAllocator.FRAME_ALLOCATOR.planRegions bootPlan
  cr3 := 0x1000
  hhdmOffset := 0xFFFF800000000000
  level4Phys := 0x6000
  kernelCr3 := 0x6000
  freedCr3Count := 0
  freedCr3List _ := 0
  served := []

theorem wf_bootPlan : (FrameAllocator.FRAME_ALLOCATOR.planRegions bootPlan).Wf :=
  (seeding_planRegions _ (by simp [bootPlan, MemoryRegion.isUsable]) (by decide)).wf

theorem bootPlan_avail
    (here : p ∈ (FrameAllocator.FRAME_ALLOCATOR.planRegions bootPlan).avail) : 0x100000 ≤ p :=
  base_le_of_avail (by decide) (by decide) here

theorem forkMachine_cloneable (small : SmallPages (forkMachine low leaf).mem (pageBase 0x1000))
    (below : ∀ f ∈ userFrames (forkMachine low leaf).mem (pageBase 0x1000), f < 0x100000)
    (enough : (forkMachine low leaf).fa.Serves
      ((frames owned (forkMachine low leaf).mem 3 (pageBase 0x1000) 256).length + 1)) :
    (forkMachine low leaf).Cloneable 0x1000 :=
  ⟨wf_bootPlan, small, fun f member here => absurd (below f member) (bootPlan_avail here).not_gt, enough⟩

/-- A writable page that must not be executed, and a kernel that lives in the upper
    half: the copy's page is executable, and the copy has no kernel. -/
theorem clone_drops_noExecute_and_kernel :
    (forkMachine 0 (0x5007 ||| NO_EXECUTE)).Cloneable 0x1000 ∧
    ∃ cr3' m', (forkMachine 0 (0x5007 ||| NO_EXECUTE)).cloneUserAddressSpace 0x1000 =
        some (some cr3', m') ∧
      ¬ Faithful (forkMachine 0 (0x5007 ||| NO_EXECUTE)) m' 0x1000 cr3' ∧
      (forkMachine 0 (0x5007 ||| NO_EXECUTE)).permissions 0x1000 0 = some ⟨true, true, true⟩ ∧
      m'.permissions cr3' 0 = some ⟨true, true, false⟩ ∧
      (forkMachine 0 (0x5007 ||| NO_EXECUTE)).mem 0x6000 256 = 0x7003 ∧
      m'.mem (pageBase cr3') 256 = 0 := by
  refine ⟨forkMachine_cloneable (by decide +kernel) (by decide +kernel) (by decide +kernel), ?_⟩
  obtain ⟨⟨_, m'⟩, cloned, rfl, perms, kernel⟩ : ∃ out,
      (forkMachine 0 (0x5007 ||| NO_EXECUTE)).cloneUserAddressSpace 0x1000 = some out ∧
      out.1 = some 0x100000 ∧ out.2.permissions 0x100000 0 = some ⟨true, true, false⟩ ∧
      out.2.mem 0x100000 256 = 0 := Lib.Run.exists_of_any (by decide +kernel)
  refine ⟨_, m', cloned, fun faithful => ?_, by decide, perms, by decide, kernel⟩
  have same := faithful.perms 0 (by decide)
  rw [perms] at same
  cases same

/-- An executable page under a kernel PML4 whose halves agree. -/
theorem cloneUserAddressSpace_faithful_forkMachine :
    (forkMachine 0x7003 0x5007).Cloneable 0x1000 ∧
    ∃ cr3' m', (forkMachine 0x7003 0x5007).cloneUserAddressSpace 0x1000 = some (some cr3', m') ∧
      Faithful (forkMachine 0x7003 0x5007) m' 0x1000 cr3' := by
  have source : (forkMachine 0x7003 0x5007).Cloneable 0x1000 :=
    forkMachine_cloneable (by decide +kernel) (by decide +kernel) (by decide +kernel)
  have halves : KernelHalvesAgree (forkMachine 0x7003 0x5007) := by
    unfold KernelHalvesAgree
    decide +kernel
  have executable : ∀ f i, (forkMachine 0x7003 0x5007).mem f i &&& NO_EXECUTE = 0 := by
    intro f i
    simp only [forkMachine]
    split_ifs <;> decide
  exact ⟨source, (cloneUserAddressSpace_faithful_iff _ _ source).mpr
    ⟨halves, executeKeptBelow_of_forall executable⟩⟩

/-! ## Failed clones -/

/-- A clone that fails keeps the frames it took: the free frames are the same as before
    exactly when there was none for the first table. -/
theorem failed_clone_neutral_iff {m m' : Machine} {cr3 : Nat} (wf : m.fa.Wf)
    (inUse : ∀ f ∈ userFrames m.mem (pageBase cr3), f ∉ m.fa.avail)
    (run : m.cloneUserAddressSpace cr3 = some (none, m')) :
    m'.fa.avail = m.fa.avail ↔ m.allocFrame = some (none, m) := by
  obtain ⟨_, no, _⟩ | ⟨-, -, -, -, -, lost⟩ := cloneUserAddressSpace_outcome wf inUse run
  · cases no
  constructor
  · intro same
    cases got : m.allocFrame with
    | none => simp [cloneUserAddressSpace, got] at run
    | some first =>
      obtain ⟨_ | root, m₁⟩ := first
      · rw [allocFrame_none got]
      · have mem := (allocFrame_some wf got).mem
        exact absurd (same ▸ mem) (lost root m₁ got)
  · intro empty
    simp only [cloneUserAddressSpace, empty] at run
    cases run
    rfl

/-- The space of one page, with these usable ranges. -/
def tightMachine (ranges : List MemoryRegion) : Machine :=
  { forkMachine 0 0x5007 with
    fa := FrameAllocator.FRAME_ALLOCATOR.planRegions { bootPlan with memoryMap := ranges } }

theorem tightMachine_inUse {ranges : List MemoryRegion} (fresh : (tightMachine ranges).fa.freeStack = [])
    (high : ∀ e ∈ (tightMachine ranges).fa.live, 0x100000 ≤ e.1.base) :
    ∀ f ∈ userFrames (tightMachine ranges).mem (pageBase 0x1000), f ∉ (tightMachine ranges).fa.avail := by
  have below : ∀ f ∈ userFrames (forkMachine 0 0x5007).mem (pageBase 0x1000), f < 0x100000 := by
    decide +kernel
  exact fun f member here =>
    absurd (below f member) (base_le_of_avail fresh high here).not_gt

theorem failed_clone_empty :
    ∃ m', (tightMachine []).cloneUserAddressSpace 0x1000 = some (none, m') ∧
      m'.fa.avail = (tightMachine []).fa.avail := by
  refine ⟨tightMachine [], rfl, (failed_clone_neutral_iff (FrameAllocator.seeding_planRegions _
    (by simp) (by simp)).wf (tightMachine_inUse (by decide) (by decide)) rfl).mpr rfl⟩

/-- One frame is left: the clone takes it for the PML4, finds none for the next table, and
    does not give it back. -/
theorem failed_clone_keeps_frame :
    (tightMachine [⟨0x100000, 0x1000, 0⟩]).fa.Wf ∧
    (∀ f ∈ userFrames (tightMachine [⟨0x100000, 0x1000, 0⟩]).mem (pageBase 0x1000),
      f ∉ (tightMachine [⟨0x100000, 0x1000, 0⟩]).fa.avail) ∧
    ∃ m', (tightMachine [⟨0x100000, 0x1000, 0⟩]).cloneUserAddressSpace 0x1000 = some (none, m') ∧
      0x100000 ∈ (tightMachine [⟨0x100000, 0x1000, 0⟩]).fa.avail ∧ 0x100000 ∉ m'.fa.avail := by
  refine ⟨(FrameAllocator.seeding_planRegions _ (by simp [MemoryRegion.isUsable]) (by decide)).wf,
    tightMachine_inUse (by decide) (by decide), ?_⟩
  obtain ⟨⟨_, m'⟩, cloned, rfl, gone⟩ : ∃ out,
      (tightMachine [⟨0x100000, 0x1000, 0⟩]).cloneUserAddressSpace 0x1000 = some out ∧ out.1 = none ∧
      0x100000 ∉ out.2.fa.avail := Lib.Run.exists_of_any (by decide +kernel)
  exact ⟨m', cloned, by decide +kernel, gone⟩

end Machine

end Zenus.Mem
