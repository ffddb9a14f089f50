import Zenus.Mem.Spaces
import Zenus.Sys.Fork
import Zenus.Sys.HeapPages
import Zenus.Sys.MmapAgree

/-! # Runs of mappings

Calls of `mmap`, `munmap` and `mprotect` that succeed and stay in a range of pages that
is for nothing else.  After each call the areas, the tables and the account agree, if and
only if each call was whole: an `mmap` has got all its tables, a `munmap` covers the areas
it meets, and an `mprotect` too unless they have its rights already, and finds tables that
let the program write if it is to.
-/

namespace Zenus.Sys

open Lib.Word Lib.Run Mem Mem.Machine Sched Sched.Scheduler Fs.CgroupTable Option Memory VmaTable List Nat Prod Spaces

inductive AreaCall where
  | mmap (addr length prot flags : Nat)
  | munmap (addr length : Nat)
  | mprotect (addr length prot : Nat)
  deriving DecidableEq, Repr

/-- A call that succeeds and stays in the pages from number `lo` up to `hi`. -/
def areaStep (mapper : Mapper) (cpu lo hi : Nat) (k : Memory) : AreaCall → Option Memory
  | .mmap addr length prot flags =>
    (k.sysMmap mapper cpu addr length prot flags).bind fun (result, k') =>
      if result ≠ WORD - 1 ∧ 4096 * lo ≤ result ∧ result + length ≤ 4096 * hi then some k' else none
  | .munmap addr length =>
    (k.sysMunmap cpu addr length).bind fun (result, k') =>
      if result ≠ WORD - 1 ∧ 4096 * lo ≤ addr ∧ addr + length ≤ 4096 * hi then some k' else none
  | .mprotect addr length prot =>
    if (k.sysMprotect cpu addr length prot).1 ≠ WORD - 1 ∧ 4096 * lo ≤ addr ∧ addr + length ≤ 4096 * hi then
      some (k.sysMprotect cpu addr length prot).2
    else none

/-- The program may write what the tables on the way to an address lead to. -/
def OpenTo (m : Machine) (cr3 virt : Nat) : Prop :=
  ∀ way ∈ walkPath m.mem virt 3 (pageBase cr3), ∀ w ∈ way.1, w &&& WRITABLE ≠ 0

/-- A call from `k` to `k'` does to the areas of the task what it does to its tables. -/
def WholeCall (k k' : Memory) (t : Task) : AreaCall → Prop
  | .mmap .. => k'.lost = k.lost
  | .munmap addr length => ∀ range ∈ munmapPageRange addr length, Covers range.1 range.2 t.vma
  | .mprotect addr length prot => ∀ range ∈ mprotectRange addr length USER_SPACE_LIMIT,
      CoversRights range.1 range.2 prot t.vma ∧
        (prot &&& PROT_WRITE ≠ 0 → ∀ virt, range.1 ≤ virt → virt < range.2 → OpenTo k.machine t.cr3 virt)

def Whole (mapper : Mapper) (cpu lo hi : Nat) (k : Memory) (call : AreaCall) : Prop :=
  ∀ t ∈ k.sched.getTask (k.sched.currentTaskId cpu), ∀ k' ∈ areaStep mapper cpu lo hi k call,
    WholeCall k k' t call

instance (m : Machine) (cr3 virt : Nat) : Decidable (OpenTo m cr3 virt) :=
  inferInstanceAs (Decidable (∀ way ∈ walkPath m.mem virt 3 (pageBase cr3), ∀ w ∈ way.1, w &&& WRITABLE ≠ 0))

instance (k k' : Memory) (t : Task) : (call : AreaCall) → Decidable (WholeCall k k' t call)
  | .mmap .. => inferInstanceAs (Decidable (k'.lost = k.lost))
  | .munmap addr length =>
    inferInstanceAs (Decidable (∀ range ∈ munmapPageRange addr length, ∀ r ∈ t.vma.live,
      r.overlaps range.1 range.2 = true → range.1 ≤ r.start ∧ r.endAddr ≤ range.2))
  | .mprotect addr length prot =>
    inferInstanceAs (Decidable (∀ range ∈ mprotectRange addr length USER_SPACE_LIMIT,
      (∀ r ∈ t.vma.live, r.overlaps range.1 range.2 = true →
        (range.1 ≤ r.start ∧ r.endAddr ≤ range.2) ∨ rightsOf r.prot = rightsOf prot) ∧
      (prot &&& PROT_WRITE ≠ 0 → ∀ virt, range.1 ≤ virt → virt < range.2 → OpenTo k.machine t.cr3 virt)))

instance (mapper : Mapper) (cpu lo hi : Nat) (k : Memory) (call : AreaCall) :
    Decidable (Whole mapper cpu lo hi k call) :=
  inferInstanceAs (Decidable (∀ t ∈ k.sched.getTask (k.sched.currentTaskId cpu),
    ∀ k' ∈ areaStep mapper cpu lo hi k call, WholeCall k k' t call))

/-- The three records of the task that the processor runs are in order and agree. -/
structure Ready (cpu lo hi : Nat) (k : Memory) (t : Task) : Prop where
  room : 4096 * hi ≤ MAX_MAPPING_SIZE
  task : k.sched.getTask (k.sched.currentTaskId cpu) = some t
  inv : t.vma.Inv
  inside : Inside lo hi t.vma
  area : AreaMap k.machine (pageBase t.cr3) lo hi (rightsAt t.vma)
  account : Account k.sched.cgroups (k.sched.currentTaskId cpu) (4096 * pagesIn lo hi (rightsAt t.vma))

section Calls

variable {mapper : Mapper} {cpu lo hi addr length prot flags task c result : Nat} {k k' : Memory} {t : Task}
  {p : Pages}
  {vma : VmaTable}

theorem Ready.user (ready : Ready cpu lo hi k t) : 4096 * hi ≤ 2 ^ 47 :=
  ready.room.trans (by decide)

theorem Ready.agrees (ready : Ready cpu lo hi k t) : Agrees cpu lo hi k := by
  intro t' task
  cases ready.task.symm.trans task
  exact (agreeOn_iff ready.area ready.user ready.inv ready.account.charged).mpr ⟨fun _ _ _ => rfl, rfl⟩

/-! ## What a call leaves -/

theorem current_setVma (k : Memory) (p : Pages) (task : Nat) (vma : VmaTable) (cpu : Nat) :
    ((k.withPages p).setVma task vma).sched.currentTaskId cpu = k.sched.currentTaskId cpu :=
  currentTaskId_changeTask (by simp) task cpu

theorem task_setVma (found : k.sched.getTask task = some t) (p : Pages) (vma : VmaTable) :
    ((k.withPages p).setVma task vma).sched.getTask task = some { t with vma := vma } := by
  have found : (k.withPages p).sched.getTask task = some t := found
  rw [setVma, getTask_changeTask (by simp), found, map_some]

theorem groups_setVma (k : Memory) (p : Pages) (task : Nat) (vma : VmaTable) :
    ((k.withPages p).setVma task vma).sched.cgroups = p.groups := by
  obtain ⟨tasks, frame⟩ := changeTask_frame (k.withPages p).sched task fun t => { t with vma := vma }
  rw [setVma, frame]
  rfl

theorem agrees_setVma (task : k.sched.getTask (k.sched.currentTaskId cpu) = some t) :
    Agrees cpu lo hi ((k.withPages p).setVma (k.sched.currentTaskId cpu) vma) ↔
      AgreeOn lo hi p.machine p.groups (k.sched.currentTaskId cpu) { t with vma := vma } := by
  unfold Agrees
  rw [current_setVma, task_setVma task, groups_setVma]
  exact ⟨fun all => all _ rfl, fun one t' same => some.inj same ▸ one⟩

theorem Ready.after {rights : Nat → Option (Bool × Bool)} (ready : Ready cpu lo hi k t)
    (inv : vma.Inv) (inside : Inside lo hi vma) (area : AreaMap p.machine (pageBase t.cr3) lo hi rights)
    (account : Account p.groups (k.sched.currentTaskId cpu) c) :
    let k' := (k.withPages p).setVma (k.sched.currentTaskId cpu) vma
    (Agrees cpu lo hi k' ↔
      (∀ n, lo ≤ n → n < hi → rightsAt vma n = rights n) ∧ c = 4096 * pagesIn lo hi rights) ∧
    (Agrees cpu lo hi k' → ∃ t', Ready cpu lo hi k' t') := by
  intro k'
  have agree : Agrees cpu lo hi k' ↔
      (∀ n, lo ≤ n → n < hi → rightsAt vma n = rights n) ∧ c = 4096 * pagesIn lo hi rights :=
    (agrees_setVma ready.task).trans
      (agreeOn_iff area ready.user inv account.charged)
  refine ⟨agree, fun agrees => ⟨{ t with vma := vma }, ready.room, ?_, inv, inside, ?_, ?_⟩⟩
  · rw [current_setVma]
    exact task_setVma ready.task p vma
  · exact area.congr (agree.mp agrees).1
  · rw [current_setVma, groups_setVma]
    obtain ⟨same, rfl⟩ := agree.mp agrees
    have count : pagesIn lo hi (rightsAt vma) = pagesIn lo hi rights :=
      pagesIn_congr fun n low high => by rw [same n low high]
    exact count ▸ account

/-! ## `munmap` -/

theorem forall_mem_some {α : Type} {P : α → Prop} {a : α} : (∀ b ∈ some a, P b) ↔ P a := by
  simp

theorem munmapPageRange_within (low : 4096 * lo ≤ addr) (high : addr + length ≤ 4096 * hi)
    (user : 4096 * hi ≤ 2 ^ 47) (nonempty : length ≠ 0) :
    ∃ a b, munmapPageRange addr length = some (4096 * a, 4096 * b) ∧ lo ≤ a ∧ a ≤ b ∧ b ≤ hi := by
  have first : checkedAdd addr length = some (addr + length) := if_pos (by rw [WORD_eq]; omega)
  have second : checkedAdd (addr + length) 0xFFF = some (addr + length + 0xFFF) :=
    if_pos (by rw [WORD_eq]; omega)
  refine ⟨addr / 4096, (addr + length + 0xFFF) / 4096, ?_, by omega, by omega, by omega⟩
  rw [munmapPageRange, if_neg nonempty, first, bind_some, second, bind_some,
    pageBase_eq (by rw [WORD_eq]; omega), pageBase_eq (by rw [WORD_eq]; omega), if_neg (by omega)]

theorem Ready.munmap (ready : Ready cpu lo hi k t)
    (made : areaStep mapper cpu lo hi k (.munmap addr length) = some k') :
    (Agrees cpu lo hi k' ↔ ∀ range ∈ munmapPageRange addr length, Covers range.1 range.2 t.vma) ∧
    (Agrees cpu lo hi k' → ∃ t', Ready cpu lo hi k' t') := by
  obtain ⟨⟨result, k''⟩, run, kept⟩ := bind_eq_some_iff.mp made
  dsimp only at kept
  split_ifs at kept with within
  cases kept
  obtain ⟨success, low, high⟩ := within
  have nonempty : length ≠ 0 := by
    intro zero
    rw [sysMunmap, munmapPageRange, if_pos zero] at run
    exact success (mk.inj (some.inj run)).1.symm
  obtain ⟨a, b, range, first, order, last⟩ := munmapPageRange_within low high ready.user nonempty
  simp only [sysMunmap, range, ready.task] at run
  rw [show (4096 * b - 4096 * a) / 0x1000 = b - a by omega] at run
  obtain ⟨p, rights, pages, described, area, account⟩ := munmapPages_spec (p := k.pages) ready.area
    ready.user ready.account first (show a + (b - a) ≤ hi by omega)
  rw [pages, map_some] at run
  cases run
  obtain ⟨agree, next⟩ := ready.after (inv_removeOverlapping ready.inv _ _)
    (inside_removeOverlapping ready.inv ready.inside) area account
  refine ⟨?_, next⟩
  rw [agree, range, and_iff_left rfl, forall_mem_some,
    ← rightsAt_removeOverlapping_iff ready.inv ready.inside first last]
  simp only [described, show a + (b - a) = b by omega]

/-! ## `mprotect` -/

section Tables

variable {m m' : Machine} {cr3 virt n a b : Nat} {rights : Nat → Option (Bool × Bool)} {w x : Bool}

theorem openTo_iff (area : AreaMap m (pageBase cr3) lo hi rights) (user : 4096 * hi ≤ 2 ^ 47)
    (low : lo ≤ virt / 4096) (high : virt / 4096 < hi) :
    OpenTo m cr3 virt ↔ (rights (virt / 4096) ≠ none → Opened m (pageBase cr3) (virt / 4096)) := by
  have way : Same 4 virt (4096 * (virt / 4096)) := (same_page_iff (by omega) (by omega)).mpr (by omega)
  have word : wordAt m.mem (pageBase cr3) virt 3 = pageWord m (pageBase cr3) (virt / 4096) := way.wordAt
  by_cases mapped : rights (virt / 4096) = none
  · have none := area.tree.walkPath_none (by omega) (word.trans (area.vacant _ low high mapped))
    refine ⟨fun _ no => absurd mapped no, fun _ => ?_⟩
    simp [OpenTo, none]
  · have path := area.tree.walkPath (by omega)
      fun zero => mapped ((area.word_iff low high).mp (word.symm.trans zero))
    have words : ∀ d < 3, wordAt m.mem (pageBase cr3) virt d =
        wordAt m.mem (pageBase cr3) (4096 * (virt / 4096)) d := fun d deep => (way.le (by omega)).wordAt
    rw [OpenTo, path, forall_mem_some, imp_iff_right mapped]
    constructor
    · intro all d deep
      rw [← words d deep]
      refine all _ ?_
      obtain rfl | rfl | rfl : d = 0 ∨ d = 1 ∨ d = 2 := by omega
      all_goals simp
    · intro opened w mem
      simp only [mem_cons, not_mem_nil, or_false] at mem
      rcases mem with rfl | rfl | rfl
      · rw [words 0 (by decide)]
        exact opened 0 (by decide)
      · rw [words 1 (by decide)]
        exact opened 1 (by decide)
      · rw [words 2 (by decide)]
        exact opened 2 (by decide)

theorem not_writable (area : AreaMap m (pageBase cr3) lo hi rights) (user : 4096 * hi ≤ 2 ^ 47)
    (change : Protected m m' (pageBase cr3) a b w x) (low : lo ≤ n) (high : n < hi) (mapped : rights n ≠ none)
    (closed : ¬ Opened m (pageBase cr3) n) :
    ∃ perms, m'.permissions cr3 (4096 * n) = some perms ∧ perms.writable = false := by
  have page : pageWord m' (pageBase cr3) n ≠ 0 := by
    have before := mt (area.word_iff low high).mp mapped
    rw [change.pages n (by omega)]
    split_ifs
    · intro zero
      have present := protectWord_present w x (pageWord m (pageBase cr3) n)
      rw [zero, zero_and] at present
      exact before ((area.tree.absent_iff le_rfl (by omega)).mp present.symm)
    · exact before
  refine ⟨_, by rw [Machine.permissions, change.change.tree.walkPath (by omega) page, map_some], ?_⟩
  obtain ⟨d, deep, zero⟩ : ∃ d < 3, wordAt m.mem (pageBase cr3) (4096 * n) d &&& WRITABLE = 0 := by
    simpa only [Opened, not_forall, not_not, exists_prop] using closed
  rw [← change.upper d deep _ (by omega)] at zero
  simp only [permsOf, all_cons, all_nil, Bool.and_true]
  obtain rfl | rfl | rfl : d = 0 ∨ d = 1 ∨ d = 2 := by omega
  all_goals simp [zero]

end Tables

theorem or_page (x : Nat) : x ||| 0xFFF = 4096 * (x / 4096) + 0xFFF := by
  refine eq_of_testBit_eq fun i => ?_
  rw [testBit_or, show 4096 = 2 ^ 12 by decide, show 0xFFF = 2 ^ 12 - 1 by decide,
    testBit_two_pow_mul_add _ (by decide), testBit_two_pow_sub_one]
  split_ifs with low
  · simp [low]
  · rw [testBit_div_two_pow, show i - 12 + 12 = i by omega]
    simp [low]

theorem mprotectRange_within (low : 4096 * lo ≤ addr) (high : addr + length ≤ 4096 * hi)
    (user : 4096 * hi ≤ MAX_MAPPING_SIZE) (nonempty : length ≠ 0) :
    ∃ a b, mprotectRange addr length USER_SPACE_LIMIT = some (4096 * a, 4096 * b) ∧
      lo ≤ a ∧ a ≤ b ∧ b ≤ hi := by
  have room : MAX_MAPPING_SIZE < USER_SPACE_LIMIT := by decide
  have limit : USER_SPACE_LIMIT = 2 ^ 47 := by decide
  have last : checkedAdd addr (length - 1) = some (addr + (length - 1)) := if_pos (by rw [WORD_eq]; omega)
  have next : checkedAdd (4096 * ((addr + (length - 1)) / 4096) + 0xFFF) 1 =
      some (4096 * ((addr + (length - 1)) / 4096) + 0xFFF + 1) := if_pos (by rw [WORD_eq]; omega)
  refine ⟨addr / 4096, (addr + (length - 1)) / 4096 + 1, ?_, by omega, by omega, by omega⟩
  rw [mprotectRange, if_neg nonempty, last, bind_some, if_neg (by omega), or_page, next, bind_some,
    pageBase_eq (by rw [WORD_eq]; omega), if_neg (by omega)]
  congr 2

theorem Ready.mprotect (ready : Ready cpu lo hi k t)
    (made : areaStep mapper cpu lo hi k (.mprotect addr length prot) = some k') :
    (Agrees cpu lo hi k' ↔
      ∀ range ∈ mprotectRange addr length USER_SPACE_LIMIT, CoversRights range.1 range.2 prot t.vma ∧
        (prot &&& PROT_WRITE ≠ 0 → ∀ virt, range.1 ≤ virt → virt < range.2 → OpenTo k.machine t.cr3 virt)) ∧
    (Agrees cpu lo hi k' → ∃ t', Ready cpu lo hi k' t') := by
  rw [areaStep] at made
  split_ifs at made with within
  cases made
  obtain ⟨success, low, high⟩ := within
  have nonempty : length ≠ 0 := by
    intro zero
    rw [sysMprotect, mprotectRange, if_pos zero] at success
    exact success rfl
  obtain ⟨a, b, range, first, order, last⟩ := mprotectRange_within low high ready.room nonempty
  have user := ready.user
  have pages := ready.area.tree.protected a (b - a) (prot &&& PROT_WRITE != 0) (prot &&& PROT_EXEC != 0)
    (by omega)
  rw [show a + (b - a) = b by omega] at pages
  simp only [sysMprotect, range, ready.task, forall_mem_some]
  rw [show (4096 * b - 4096 * a) / 0x1000 = b - a by omega]
  generalize (List.range (b - a)).foldl _ k.machine = m at pages
  have inv := inv_setProt ready.inv (4096 * a) (4096 * b) prot
  have inside := inside_setProt (4096 * a) (4096 * b) prot ready.inside
  by_cases opened : (prot &&& PROT_WRITE != 0) = true →
      ∀ n, lo ≤ n → n < hi → a ≤ n → n < b → rightsAt t.vma n ≠ none → Opened k.machine (pageBase t.cr3) n
  · obtain ⟨agree, next⟩ := ready.after (p := ⟨m, k.sched.cgroups, k.lost⟩) inv inside
      (ready.area.protected user pages opened) ready.account
    have covers := rightsAt_setProt_iff prot ready.inv ready.inside first last
    have count : pagesIn lo hi (rightsAt t.vma) = pagesIn lo hi fun n => if a ≤ n ∧ n < b then
        (rightsAt t.vma n).map fun _ => (prot &&& PROT_WRITE != 0, prot &&& PROT_EXEC != 0)
      else rightsAt t.vma n := by
      refine pagesIn_congr fun n _ _ => ?_
      split_ifs
      · rw [isSome_map]
      · rfl
    refine ⟨agree.trans ((and_iff_left (congrArg (4096 * ·) count)).trans (covers.trans ?_)), next⟩
    refine (and_iff_left fun writes virt start stop => ?_).symm
    refine (openTo_iff ready.area user (by omega) (by omega)).mpr fun mapped => ?_
    exact opened (bne_iff_ne.mpr writes) _ (by omega) (by omega) (by omega) (by omega) mapped
  · -- a page of the range that is mapped and does not get writable
    simp only [not_forall] at opened
    obtain ⟨writes, n, low', high', start, stop, mapped, closed⟩ := opened
    obtain ⟨perms, found, readonly⟩ := not_writable ready.area user pages low' high' mapped closed
    have apart : ¬ Agrees cpu lo hi (({ k with machine := m } : Memory).setVma (k.sched.currentTaskId cpu)
        (t.vma.setProt (4096 * a) (4096 * b) prot)) := by
      intro agrees
      have agree := (agrees_setVma (p := ⟨m, k.sched.cgroups, k.lost⟩) ready.task).mp agrees
      obtain ⟨rights, was⟩ := ne_none_iff_exists'.mp mapped
      obtain ⟨r, mem, here, -⟩ := exists_of_rightsAt was
      have now := rightsAt_setProt (4096 * a) (4096 * b) prot ready.inv mem here
      rw [if_pos (overlaps_of_contains here start stop)] at now
      obtain ⟨r', mem', here', same⟩ := exists_of_rightsAt now
      have wrong := (agree.rights n low' high' r' mem' here' perms found).1
      rw [readonly, (mk.inj same).1, writes] at wrong
      cases wrong
    refine ⟨iff_of_false apart fun whole => closed ?_, fun agrees => absurd agrees apart⟩
    have page : 4096 * n / 4096 = n := by omega
    have free := whole.2 (bne_iff_ne.mp writes) (4096 * n) (by omega) (by omega)
    rw [openTo_iff ready.area user (by omega) (by omega), page] at free
    exact free mapped

/-! ## `mmap` -/

theorem mmapStart_aligned (vma : VmaTable) (addr size flags : Nat) : 4096 ∣ mmapStart vma addr size flags := by
  have search : ∀ hint, 4096 ∣ (vma.findFree size hint).getD 0 := by
    intro hint
    cases found : vma.findFree size hint with
    | none => exact dvd_zero 4096
    | some start => exact (findFree_spec found).1
  unfold mmapStart
  split_ifs
  · exact and_bnot_page addr
  · exact search _
  · exact search _

theorem sysMmap_some (task : k.sched.getTask (k.sched.currentTaskId cpu) = some t)
    (run : k.sysMmap mapper cpu addr length prot flags = some (result, k')) (success : result ≠ WORD - 1) :
    ∃ a count done slot p vma, result = 4096 * a ∧ length ≤ 4096 * count ∧ 4096 * count < length + 4096 ∧
      4096 * count ≤ MAX_MAPPING_SIZE ∧
      k.pages.mmapPages mapper (k.sched.currentTaskId cpu) t.cr3 (4096 * a) prot count = some (true, done, p) ∧
      t.vma.insert (4096 * a) (wadd (4096 * a) (4096 * count)) prot flags = (some slot, vma) ∧
      k' = (k.withPages p).setVma (k.sched.currentTaskId cpu) vma := by
  unfold sysMmap at run
  split at run
  · exact absurd (mk.inj (some.inj run)).1.symm success
  · rename_i count size extent
    obtain ⟨rfl, least, most, fits⟩ := mmapExtent_some extent
    simp only [task] at run
    obtain ⟨a, start⟩ := mmapStart_aligned t.vma addr (4096 * count) flags
    rw [start] at run
    split_ifs at run
    · exact absurd (mk.inj (some.inj run)).1.symm success
    · unfold mmapAt at run
      split at run
      · cases run
      · obtain ⟨p, -, failed⟩ := map_eq_some_iff.mp run
        exact absurd (mk.inj failed).1.symm success
      · rename_i done p pages
        split at run
        · rename_i slot vma inserted
          cases run
          exact ⟨a, count, done, slot, p, vma, rfl, least, most, fits, pages, inserted, rfl⟩
        · obtain ⟨p, -, failed⟩ := map_eq_some_iff.mp run
          exact absurd (mk.inj failed).1.symm success

theorem Ready.mmap (ready : Ready cpu lo hi k t)
    (made : areaStep mapper cpu lo hi k (.mmap addr length prot flags) = some k') :
    (Agrees cpu lo hi k' ↔ k'.lost = k.lost) ∧ (Agrees cpu lo hi k' → ∃ t', Ready cpu lo hi k' t') := by
  obtain ⟨⟨result, k''⟩, run, kept⟩ := bind_eq_some_iff.mp made
  dsimp only at kept
  split_ifs at kept with within
  cases kept
  obtain ⟨success, low, high⟩ := within
  obtain ⟨a, count, done, slot, p, vma, rfl, least, most, -, pages, inserted, rfl⟩ :=
    sysMmap_some ready.task run success
  have user := ready.user
  have last : a + count ≤ hi := by omega
  have total : wadd (4096 * a) (4096 * count) = 4096 * (a + count) := by
    rw [wadd_of_lt (by rw [WORD_eq]; omega)]
    omega
  rw [total] at inserted
  obtain ⟨-, -, free, -, -, -⟩ := live_insert_some inserted
  have vacant : ∀ n, a ≤ n → n < a + count → rightsAt t.vma n = none := by
    intro n start stop
    refine rightsAt_eq_none.mpr fun r mem here => ?_
    exact any_eq_false.mp free r mem (overlaps_of_contains here start stop)
  have few := pagesIn_le lo hi (rightsAt t.vma)
  obtain ⟨rights, area, outside, account, whole⟩ := mmapPages_spec ready.area user ready.account
    (by omega) last (by rw [WORD_eq]; omega) vacant pages
  have inv : vma.Inv := by
    simpa [inserted] using inv_insert ready.inv (4096 * a) (4096 * (a + count)) prot flags
  obtain ⟨agree, next⟩ := ready.after inv
    (inside_insert ready.inside (by omega) last inserted) area account
  refine ⟨agree.trans (Iff.trans ?_ whole.symm), next⟩
  simp only [rightsAt_insert ready.inv inserted]
  constructor
  · intro ⟨same, _⟩ n start stop
    rw [← same n (by omega) (by omega), if_pos ⟨start, stop⟩]
  · intro all
    refine ⟨fun n _ _ => ?_, ?_⟩
    · split_ifs with here
      · rw [all n here.1 here.2]
      · rw [outside n here]
    · rw [pagesIn_grown (by omega) last vacant outside all]
      omega

/-! ## Runs -/

/-- Every call either does not belong to the run, or leaves records that agree if and only
    if it is whole. -/
theorem Ready.step (ready : Ready cpu lo hi k t) (call : AreaCall) :
    (areaStep mapper cpu lo hi k call = none ∧ Whole mapper cpu lo hi k call) ∨
      ∃ k', areaStep mapper cpu lo hi k call = some k' ∧ (Agrees cpu lo hi k' → ∃ t', Ready cpu lo hi k' t') ∧
        (Agrees cpu lo hi k' ↔ Whole mapper cpu lo hi k call) := by
  cases made : areaStep mapper cpu lo hi k call with
  | none =>
    refine .inl ⟨rfl, fun t _ k' other => ?_⟩
    rw [made] at other
    cases other
  | some k' =>
    have whole : Whole mapper cpu lo hi k call ↔ WholeCall k k' t call := by
      constructor
      · exact fun all => all t ready.task k' made
      · intro one t' task k'' other
        cases ready.task.symm.trans task
        cases made.symm.trans other
        exact one
    have after : (Agrees cpu lo hi k' ↔ WholeCall k k' t call) ∧
        (Agrees cpu lo hi k' → ∃ t', Ready cpu lo hi k' t') := by
      cases call with
      | mmap addr length prot flags => exact ready.mmap made
      | munmap addr length => exact ready.munmap made
      | mprotect addr length prot => exact ready.mprotect made
    exact .inr ⟨k', rfl, after.2, after.1.trans whole.symm⟩

/-- A task with nothing in the range yet: no area and no page, and no charge. -/
structure Fresh (cpu lo hi : Nat) (k : Memory) (t : Task) : Prop where
  room : 4096 * hi ≤ MAX_MAPPING_SIZE
  task : k.sched.getTask (k.sched.currentTaskId cpu) = some t
  inv : t.vma.Inv
  areas : ∀ r ∈ t.vma.live, r.endAddr ≤ 4096 * lo ∨ 4096 * hi ≤ r.start
  tree : Tree k.machine (pageBase t.cr3)
  executes : ∀ d < 3, ∀ v < 2 ^ 47, wordAt k.machine.mem (pageBase t.cr3) v d &&& NO_EXECUTE = 0
  pages : ∀ n, lo ≤ n → n < hi → k.machine.virtToPhysRaw t.cr3 (4096 * n) = none
  account : Account k.sched.cgroups (k.sched.currentTaskId cpu) 0

theorem Fresh.ready (fresh : Fresh cpu lo hi k t) : Ready cpu lo hi k t := by
  have room := fresh.room
  have limit : MAX_MAPPING_SIZE < 2 ^ 47 := by decide
  have none : ∀ n, lo ≤ n → n < hi → rightsAt t.vma n = none := by
    intro n low high
    refine rightsAt_eq_none.mpr fun r mem here => ?_
    obtain ⟨-, first, last⟩ := contains_iff.mp here
    rcases fresh.areas r mem with below | above <;> omega
  have word : ∀ n, lo ≤ n → n < hi → pageWord k.machine (pageBase t.cr3) n = 0 := by
    intro n low high
    by_contra mapped
    have found := fresh.pages n low high
    rw [fresh.tree.virtToPhysRaw (by omega), ← pageWord, if_neg mapped] at found
    cases found
  have empty : pagesIn lo hi (rightsAt t.vma) = 0 := by
    refine Finset.card_eq_zero.mpr (Finset.filter_eq_empty_iff.mpr fun n inside => ?_)
    obtain ⟨low, high⟩ := Finset.mem_Ico.mp inside
    simp [none n low high]
  refine ⟨room, fresh.task, fresh.inv, fun r mem start stop => ?_, ⟨fresh.tree, fresh.executes, ?_, ?_, ?_, ?_⟩, ?_⟩
  · rcases fresh.areas r mem with below | above <;> omega
  · exact fun n low high _ => word n low high
  · intro n w x low high here
    rw [none n low high] at here
    cases here
  · exact fun n low high mapped => absurd (none n low high) mapped
  · exact fun n _ low high _ _ mapped => absurd (none n low high) mapped
  · rw [empty]
    exact fresh.account

end Calls

/-- The areas, the tables and the account agree in every state of a run, if and only if
    every call of it is whole. -/
theorem areas_agree_iff {mapper : Mapper} {cpu lo hi : Nat} {k : Memory} {t : Task} (fresh : Fresh cpu lo hi k t)
    (calls : List AreaCall) :
    Always (areaStep mapper cpu lo hi) (Agrees cpu lo hi) calls k ↔
      Along (areaStep mapper cpu lo hi) (Whole mapper cpu lo hi) calls k := by
  refine always_iff_along_partial (fun k => Agrees cpu lo hi k → ∃ t, Ready cpu lo hi k t)
    (fun k call ready agrees => ?_) (fun _ => ⟨t, fresh.ready⟩) fresh.ready.agrees
  obtain ⟨t, ready⟩ := ready agrees
  exact ready.step call

/-- A task whose space is that of the machine after boot. -/
def workplace : Memory := ⟨alone { plain with cr3 := 0x6000 }, Spaces.bootMachine, []⟩

theorem fresh_workplace : Fresh 0 0x400000000 0x700000000 workplace { plain with cr3 := 0x6000 } := by
  have root : pageBase 0x6000 = 0x6000 := by decide
  have empty : ∀ i < 256, bootMachine.mem 0x6000 i = 0 := fun i low => if_neg (by omega)
  have tree : Tree bootMachine 0x6000 := by
    refine tree_of_empty wf_bootPlan (fun free => ?_) empty
    have := bootPlan_avail free
    omega
  have zero : ∀ v < 2 ^ 47, ∀ d, wordAt bootMachine.mem 0x6000 v d = 0 := fun _ => wordAt_empty empty
  refine ⟨by decide, rfl, inv_new, by decide +kernel, root ▸ tree, ?_, ?_, ?_⟩
  · intro d _ v user
    exact (congrArg (· &&& NO_EXECUTE) (zero v user d)).trans (zero_and _)
  · intro n _ high
    have none : bootMachine.virtToPhysRaw 0x6000 (4096 * n) = _ := (root ▸ tree).virtToPhysRaw (by omega)
    rw [root, if_pos (zero _ (by omega) 3)] at none
    exact none
  · exact ⟨tidy_empty.attach 0 1, ⟨0, [⟨1, 0⟩], rfl, ⟨1, 0⟩, mem_singleton_self _, rfl⟩, rfl⟩

/-- Two pages are mapped, both are protected, and both are unmapped. -/
theorem areas_agree_workplace :
    let calls := [.mmap 0x500000000000 0x1800 3 0x22, .mprotect 0x500000000000 0x2000 1,
      .munmap 0x500000000000 0x1001]
    Fresh 0 0x400000000 0x700000000 workplace { plain with cr3 := 0x6000 } ∧
      (exec (areaStep offsetPageTable 0 0x400000000 0x700000000) calls workplace).isSome = true ∧
      Always (areaStep offsetPageTable 0 0x400000000 0x700000000) (Agrees 0 0x400000000 0x700000000) calls
        workplace := by
  intro calls
  refine ⟨fresh_workplace, by decide +kernel, ?_⟩
  exact (areas_agree_iff fresh_workplace calls).mpr (by decide +kernel)

/-- What the records of the running task say about an address: is it mapped, may it be
    written, and the rights of its area. -/
def recordsAt (k : Memory) (virt : Nat) : Option (Bool × Option Bool × Option Nat) :=
  (k.sched.getTask (k.sched.currentTaskId 0)).map fun t =>
    ((k.machine.virtToPhysRaw t.cr3 virt).isSome, (k.machine.permissions t.cr3 virt).map Perms.writable,
      (t.vma.live.find? (·.contains virt)).map VmaRegion.prot)

theorem Agrees.recordsAt {lo hi n : Nat} {k : Memory} {mapped : Bool} {writes : Option Bool} {prot : Option Nat}
    (agrees : Agrees 0 lo hi k) (low : lo ≤ n) (high : n < hi)
    (records : recordsAt k (4096 * n) = some (mapped, writes, prot)) :
    mapped = prot.isSome ∧ ∀ w ∈ writes, ∀ p ∈ prot, w = (p &&& PROT_WRITE != 0) := by
  obtain ⟨t, task, same⟩ := map_eq_some_iff.mp records
  obtain ⟨rfl, rfl, rfl⟩ : _ ∧ _ ∧ _ := by simpa using same
  have agree := agrees t task
  constructor
  · rw [Bool.eq_iff_iff, agree.mapped n low high, isSome_map, find?_isSome]
  · intro w here p area
    obtain ⟨perms, found, rfl⟩ := map_eq_some_iff.mp here
    obtain ⟨r, covered, rfl⟩ := map_eq_some_iff.mp area
    exact (agree.rights n low high r (mem_of_find?_eq_some covered)
      (by simpa using find?_some covered) perms found).1

/-- If one page of two is unmapped the area is gone and the other page is left; if one is
    protected the area says so of both; a page that was mapped read-only does not become
    writable. -/
theorem areas_disagree :
    let run := fun calls => exec (areaStep offsetPageTable 0 0x400000000 0x700000000) calls workplace
    let bad := fun calls => ¬ Always (areaStep offsetPageTable 0 0x400000000 0x700000000)
      (Agrees 0 0x400000000 0x700000000) calls workplace
    let unmap := [.mmap 0x500000000000 0x2000 3 0x22, .munmap 0x500000000000 0x1000]
    let protect := [.mmap 0x500000000000 0x2000 3 0x22, .mprotect 0x500000000000 0x1000 1]
    let widen := [.mmap 0x500000000000 0x1000 1 0x22, .mprotect 0x500000000000 0x1000 3]
    (bad unmap ∧ (run unmap).bind (recordsAt · 0x500000001000) = some (true, some true, none)) ∧
    (bad protect ∧ (run protect).bind (recordsAt · 0x500000001000) = some (true, some true, some 1)) ∧
    (bad widen ∧ (run widen).bind (recordsAt · 0x500000000000) = some (true, some false, some 3)) := by
  intro run bad unmap protect widen
  have first : (run unmap).bind (recordsAt · 0x500000001000) = some (true, some true, none) := by
    decide +kernel
  have second : (run protect).bind (recordsAt · 0x500000001000) = some (true, some true, some 1) := by
    decide +kernel
  have third : (run widen).bind (recordsAt · 0x500000000000) = some (true, some false, some 3) := by
    decide +kernel
  refine ⟨⟨fun always => ?_, first⟩, ⟨fun always => ?_, second⟩, fun always => ?_, third⟩
  · obtain ⟨k, reached, records⟩ := bind_eq_some_iff.mp first
    exact absurd ((always.last reached).recordsAt (n := 0x500000001) (by decide) (by decide) records).1 (by decide)
  · obtain ⟨k, reached, records⟩ := bind_eq_some_iff.mp second
    exact absurd ((always.last reached).recordsAt (n := 0x500000001) (by decide) (by decide) records).2 (by decide)
  · obtain ⟨k, reached, records⟩ := bind_eq_some_iff.mp third
    exact absurd ((always.last reached).recordsAt (n := 0x500000000) (by decide) (by decide) records).2 (by decide)

end Zenus.Sys
