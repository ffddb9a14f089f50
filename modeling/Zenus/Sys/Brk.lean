import Zenus.Sys.Fork
import Zenus.Sys.HeapPages

/-! # The heap break

`sys_brk` over the task table and the page tables.  A run mixes calls with stores of
the program, and carries along what the program has stored in each heap page since the
page was mapped.  Growth is exact up to a failure in the middle, which is not undone;
a shrink to an address inside a page gives that page away although its lower part is
still below the break.
-/

namespace Zenus.Sched

open Lib.Word Lib.Run Mem Mem.Machine Option

namespace Scheduler

/-- `get_task_heap_floor` -/
def taskHeapFloor (s : Scheduler) (id : Nat) : Nat :=
  match s.getTask id with
  | none => DEFAULT_HEAP_BRK
  | some t => if t.heapFloor = 0 then DEFAULT_HEAP_BRK else t.heapFloor

def setTaskHeapBrk (s : Scheduler) (id brk : Nat) : Scheduler :=
  s.changeTask id fun t => { t with heapBrk := brk }

inductive BrkAction where
  | query
  | grow
  | shrink
  | refuse
  deriving DecidableEq, Repr

def brkAction (addr current floor limit : Nat) : BrkAction :=
  if addr = 0 then .query
  else if limit ≤ addr then .refuse
  else if addr < floor then .refuse
  else if current < addr then .grow
  else if addr < current then .shrink
  else .query

/-- `sys_brk`; `none` is a panic. -/
def sysBrk (mapper : Mapper) (s : Scheduler) (m : Machine) (cpu addr : Nat) :
    Option (Nat × Scheduler × Machine) :=
  let task := s.currentTaskId cpu
  let heapStart := s.taskHeapBrk task
  match brkAction addr heapStart (s.taskHeapFloor task) USER_SPACE_LIMIT with
  | .query => some (heapStart, s, m)
  | .refuse => some (WORD - 1, s, m)
  | .grow =>
    match m.mapHeapPages mapper m.cr3 heapStart addr with
    | none => none
    | some (false, m) => some (WORD - 1, s, m)
    | some (true, m) => some (addr, s.setTaskHeapBrk task addr, m)
  | .shrink =>
    (m.unmapHeapPages m.cr3 addr heapStart).map fun m => (addr, s.setTaskHeapBrk task addr, m)

/-! ## The task's record -/

variable {s : Scheduler} {id cpu addr : Nat} {t : Task}

theorem getTask_setTaskHeapBrk (found : s.getTask id = some t) (addr : Nat) :
    (s.setTaskHeapBrk id addr).getTask id = some { t with heapBrk := addr } := by
  rw [setTaskHeapBrk, getTask_changeTask, found, map_some]
  exact fun _ => rfl

theorem currentTaskId_setTaskHeapBrk (s : Scheduler) (id cpu addr : Nat) :
    (s.setTaskHeapBrk id addr).currentTaskId cpu = s.currentTaskId cpu :=
  currentTaskId_changeTask (show ∀ t : Task, ({ t with heapBrk := addr } : Task).id = t.id from fun _ => rfl) id cpu

end Scheduler

open Scheduler

/-! ## Runs -/

/-- The task table, the memory, and for each page what the program has stored in it since
    it became part of the heap. -/
structure HeapRun where
  sched : Scheduler
  machine : Machine
  words : Nat → Nat → Nat

inductive HeapAct where
  | brk (addr : Nat)
  /-- The program stores a word. -/
  | store (virt word : Nat)
  deriving DecidableEq, Repr

namespace HeapRun

variable (mapper : Mapper) (cpu : Nat)

def floor (h : HeapRun) : Nat := h.sched.taskHeapFloor (h.sched.currentTaskId cpu)

def brk (h : HeapRun) : Nat := h.sched.taskHeapBrk (h.sched.currentTaskId cpu)

/-- Page number `n` meets the heap. -/
def InHeap (h : HeapRun) (n : Nat) : Prop :=
  h.floor cpu < h.brk cpu ∧ 4096 * n < h.brk cpu ∧ h.floor cpu < 4096 * n + 4096

instance (h : HeapRun) (n : Nat) : Decidable (h.InHeap cpu n) := inferInstanceAs (Decidable (_ ∧ _))

def renewed (h : HeapRun) (n : Nat) : Nat → Nat := if h.InHeap cpu n then h.words n else fun _ => 0

/-- The page of an address is mapped for the program to write. -/
def writable (m : Machine) (virt : Nat) : Bool :=
  (m.permissions m.cr3 virt).any fun perms => perms.user && perms.writable

def step (h : HeapRun) : HeapAct → Option HeapRun
  | .brk addr =>
    (sysBrk mapper h.sched h.machine cpu addr).map fun (_, s, m) => ⟨s, m, h.renewed cpu⟩
  | .store virt word =>
    if virt < USER_SPACE_LIMIT ∧ writable h.machine virt = true then
      (h.machine.virtToPhysRaw h.machine.cr3 virt).map fun phys =>
        ⟨h.sched, h.machine.setWord (frameAddr phys) (virt % 4096 / 8) word,
          Function.update h.words (virt / 4096)
            (Function.update (h.words (virt / 4096)) (virt % 4096 / 8) word)⟩
    else some h

/-- The heap below the break is there and holds what was stored, each page in a frame of
    its own, and nothing is mapped between the break and `top`. -/
structure Exact (top : Nat) (h : HeapRun) : Prop where
  mapped : ∀ n, h.InHeap cpu n → writable h.machine (4096 * n) = true ∧
    ∃ p, h.machine.virtToPhysRaw h.machine.cr3 (4096 * n) = some p ∧ p ∉ h.machine.fa.avail ∧
      h.machine.mem p = h.words n
  above : ∀ n, h.brk cpu ≤ 4096 * n → 4096 * n + 4096 ≤ top →
    h.machine.virtToPhysRaw h.machine.cr3 (4096 * n) = none
  once : ∀ n n' p, h.InHeap cpu n → h.InHeap cpu n' →
    h.machine.virtToPhysRaw h.machine.cr3 (4096 * n) = some p →
    h.machine.virtToPhysRaw h.machine.cr3 (4096 * n') = some p → n = n'

/-- The break, the mappings and the free frames are as they were. -/
structure Unchanged (h : HeapRun) (s : Scheduler) (m : Machine) : Prop where
  brk : s.taskHeapBrk (s.currentTaskId cpu) = h.brk cpu
  translations : ∀ virt, m.virtToPhysRaw m.cr3 virt = h.machine.virtToPhysRaw h.machine.cr3 virt
  permissions : ∀ virt, m.permissions m.cr3 virt = h.machine.permissions h.machine.cr3 virt
  frames : m.fa.avail = h.machine.fa.avail

/-- A step leads to an exact heap, and a call that fails changes nothing. -/
def Good (top : Nat) (h : HeapRun) (act : HeapAct) : Prop :=
  (∀ h', h.step mapper cpu act = some h' → Exact cpu top h') ∧
    ∀ addr, act = .brk addr → ∀ s m,
      sysBrk mapper h.sched h.machine cpu addr = some (WORD - 1, s, m) → Unchanged cpu h s m

/-- The heap does not grow beyond `top`. -/
def within (top : Nat) (h : HeapRun) : HeapAct → Bool
  | .brk addr =>
    brkAction addr (h.brk cpu) (h.floor cpu) USER_SPACE_LIMIT != .grow || decide (addr ≤ top)
  | .store .. => true

/-- The condition on a step: growth succeeds or finds no frame at all, and a shrink ends at
    a page boundary or at the floor. -/
def clean (h : HeapRun) : HeapAct → Bool
  | .brk addr =>
    match brkAction addr (h.brk cpu) (h.floor cpu) USER_SPACE_LIMIT with
    | .grow =>
      (h.machine.mapHeapPages mapper h.machine.cr3 (h.brk cpu) addr).map Prod.fst != some false ||
        h.machine.allocFrame.map Prod.fst == some none
    | .shrink => addr % 4096 == 0 || addr == h.floor cpu
    | _ => true
  | .store .. => true

/-- What a call with an address asks for. -/
abbrev asks (h : HeapRun) (addr : Nat) : BrkAction := brkAction addr (h.brk cpu) (h.floor cpu) USER_SPACE_LIMIT

/-- The run after a call that moves the break. -/
abbrev moveTo (h : HeapRun) (addr : Nat) (m : Machine) : HeapRun :=
  ⟨h.sched.setTaskHeapBrk (h.sched.currentTaskId cpu) addr, m, h.renewed cpu⟩

/-- A task whose heap lies in a range that ends at `top`. -/
structure Ready (top : Nat) (h : HeapRun) : Prop where
  task : (h.sched.getTask (h.sched.currentTaskId cpu)).isSome = true
  aligned : top % 4096 = 0
  limit : top ≤ USER_SPACE_LIMIT
  ordered : h.floor cpu ≤ h.brk cpu
  bounded : h.brk cpu ≤ top ∨ h.brk cpu = h.floor cpu
  heap : HeapMap h.machine (h.floor cpu / 4096) (top / 4096) (h.InHeap cpu) h.words

variable {mapper cpu} {h h' : HeapRun} {top addr n current floor limit virt word result : Nat} {act : HeapAct}
  {m : Machine}

theorem Ready.room (ready : Ready cpu top h) : 4096 * (top / 4096) ≤ 2 ^ 47 := by
  have limit : top ≤ 2 ^ 47 := ready.limit
  omega

theorem Ready.range (ready : Ready cpu top h) (inHeap : h.InHeap cpu n) :
    h.floor cpu / 4096 ≤ n ∧ n < top / 4096 := by
  have := ready.aligned
  have := ready.bounded
  obtain ⟨some_heap, below, above⟩ := inHeap
  omega

theorem Ready.exact (ready : Ready cpu top h) : Exact cpu top h := by
  have user : ∀ n, n < top / 4096 → 4096 * n < 2 ^ 47 := fun n below => by
    have := ready.room
    omega
  have shown : ∀ n, n < top / 4096 → h.machine.virtToPhysRaw h.machine.cr3 (4096 * n) =
      (h.machine.pageAt h.machine.cr3 (4096 * n)).map Prod.fst := fun n below =>
    ready.heap.space.virtToPhysRaw_page (user n below) (by omega)
  refine ⟨fun n inHeap => ?_, fun n above inside => ?_, fun n n' p inHeap inHeap' here there => ?_⟩
  · obtain ⟨low, high⟩ := ready.range inHeap
    obtain ⟨p, page, contents⟩ := ready.heap.held n low high inHeap
    have rights := permissions_eq h.machine h.machine.cr3 (4096 * n)
    rw [page] at rights
    obtain ⟨perms, there, both⟩ := map_eq_some_iff.mp rights
    refine ⟨by rw [writable, there]; exact both, p, by rw [shown n high, page]; rfl, ?_, contents⟩
    exact ready.heap.space.page_used (user n high) page
  · have low : h.floor cpu / 4096 ≤ n := by
      have := ready.ordered
      omega
    have high : n < top / 4096 := by omega
    rw [shown n high, ready.heap.free n low high fun inHeap => by have := inHeap.2.1; omega]
    rfl
  · obtain ⟨low, high⟩ := ready.range inHeap
    obtain ⟨low', high'⟩ := ready.range inHeap'
    rw [shown n high] at here
    rw [shown n' high'] at there
    obtain ⟨⟨q, b⟩, page, rfl⟩ := map_eq_some_iff.mp here
    obtain ⟨⟨q', b'⟩, page', same⟩ := map_eq_some_iff.mp there
    obtain rfl : q' = q := same
    have := ready.heap.space.page_once (user n high) (user n' high') page page'
    omega

/-! ## Calls -/

theorem Ready.idle (ready : Ready cpu top h) : Ready cpu top ⟨h.sched, h.machine, h.renewed cpu⟩ := by
  refine ⟨ready.task, ready.aligned, ready.limit, ready.ordered, ready.bounded, ?_⟩
  exact ready.heap.congr (fun _ _ _ => Iff.rfl) fun n _ _ inHeap => if_pos inHeap

theorem unchanged_self (h : HeapRun) : Unchanged cpu h h.sched h.machine :=
  ⟨rfl, fun _ => rfl, fun _ => rfl, rfl⟩

theorem Ready.moved (ready : Ready cpu top h) (nonzero : addr ≠ 0) (m : Machine) (words : Nat → Nat → Nat) :
    let s := h.sched.setTaskHeapBrk (h.sched.currentTaskId cpu) addr
    (s.getTask (s.currentTaskId cpu)).isSome = true ∧ HeapRun.brk cpu ⟨s, m, words⟩ = addr ∧
      HeapRun.floor cpu ⟨s, m, words⟩ = h.floor cpu := by
  obtain ⟨t, found⟩ := isSome_iff_exists.mp ready.task
  have after := getTask_setTaskHeapBrk found addr
  simp only [HeapRun.brk, HeapRun.floor, currentTaskId_setTaskHeapBrk, taskHeapBrk, taskHeapFloor, after, found,
    isSome_some, if_neg nonzero, true_and]

theorem Ready.break_to (ready : Ready cpu top h) (nonzero : addr ≠ 0) (above : h.floor cpu ≤ addr)
    (below : addr ≤ top) (heap : HeapMap m (h.floor cpu / 4096) (top / 4096)
      (fun n => h.floor cpu < addr ∧ 4096 * n < addr ∧ h.floor cpu < 4096 * n + 4096) (h.renewed cpu)) :
    Ready cpu top (h.moveTo cpu addr m) := by
  obtain ⟨task, brk, floor⟩ := ready.moved nonzero m (h.renewed cpu)
  refine ⟨task, ready.aligned, ready.limit, by rwa [brk, floor], .inl (by rwa [brk]), ?_⟩
  rw [floor]
  exact heap.congr (fun n _ _ => by rw [InHeap, brk, floor]) fun _ _ _ _ => rfl

theorem brkAction_grow (grow : brkAction addr current floor limit = .grow) :
    addr ≠ 0 ∧ addr < limit ∧ floor ≤ addr ∧ current < addr := by
  unfold brkAction at grow
  split_ifs at grow
  omega

theorem brkAction_shrink (shrink : brkAction addr current floor limit = .shrink) :
    addr ≠ 0 ∧ addr < limit ∧ floor ≤ addr ∧ addr < current := by
  unfold brkAction at shrink
  split_ifs at shrink
  omega

/-- A call that meets the condition keeps the heap in order and fails without a trace; one
    that does not meet it leaves a trace or a heap that is not exact. -/
def Judged (mapper : Mapper) (cpu top : Nat) (h : HeapRun) (addr result : Nat) (s : Scheduler) (m : Machine) :
    Prop :=
  (h.clean mapper cpu (.brk addr) = true ∧ Ready cpu top ⟨s, m, h.renewed cpu⟩ ∧
    (result = WORD - 1 → Unchanged cpu h s m)) ∨
  (h.clean mapper cpu (.brk addr) = false ∧
    ((result = WORD - 1 ∧ ¬ Unchanged cpu h s m) ∨ ¬ Exact cpu top ⟨s, m, h.renewed cpu⟩))

theorem user_limit_lt_word : USER_SPACE_LIMIT < WORD := by decide

section

variable (ready : Ready cpu top h) {ok : Bool}

include ready

theorem Ready.grow (grow : h.asks cpu addr = .grow) (inside : addr ≤ top)
    (run : h.machine.mapHeapPages mapper h.machine.cr3 (h.brk cpu) addr = some (ok, m)) :
    Took h.machine m ∧ (ok = true → Ready cpu top (h.moveTo cpu addr m)) ∧
      (ok = false → m = h.machine → h.machine.allocFrame = some (none, h.machine)) := by
  obtain ⟨nonzero, below, above, more⟩ := brkAction_grow grow
  have ordered := ready.ordered
  have aligned := ready.aligned
  have word : h.brk cpu < WORD := by
    have := user_limit_lt_word
    omega
  obtain ⟨took, done, failed⟩ := ready.idle.heap.mapHeapPages ready.room
    (show h.floor cpu / 4096 ≤ h.brk cpu / 4096 by omega) (by omega)
    (fun n no => if_neg no) word run
  refine ⟨took, fun mapped => ready.break_to nonzero above inside ?_, failed⟩
  refine (done mapped).2.congr (fun n low high => ?_) fun _ _ _ _ => rfl
  show _ ↔ (h.floor cpu < h.brk cpu ∧ 4096 * n < h.brk cpu ∧ h.floor cpu < 4096 * n + 4096) ∨ _
  omega

/-- A shrink unmaps the pages above the new break, and one page too many if the break is
    inside a page. -/
theorem Ready.shrink (shrink : h.asks cpu addr = .shrink) :
    ∃ m, h.machine.unmapHeapPages h.machine.cr3 addr (h.brk cpu) = some m ∧
      if addr % 4096 = 0 ∨ addr = h.floor cpu then Ready cpu top (h.moveTo cpu addr m)
      else ¬ Exact cpu top (h.moveTo cpu addr m) := by
  obtain ⟨nonzero, below, above, less⟩ := brkAction_shrink shrink
  have bounded := ready.bounded
  have aligned := ready.aligned
  have room := ready.room
  have word : addr < WORD := below.trans user_limit_lt_word
  obtain ⟨m, run, after⟩ := ready.idle.heap.unmapHeapPages room
    (show h.floor cpu / 4096 ≤ addr / 4096 by omega) (show h.brk cpu ≤ _ by omega) word
  have after : HeapMap m (h.floor cpu / 4096) _
      (fun n => h.InHeap cpu n ∧ ¬ (addr / 4096 ≤ n ∧ 4096 * n < h.brk cpu)) _ := after
  refine ⟨m, run, ?_⟩
  split_ifs with even
  · refine ready.break_to nonzero above (by omega) (after.congr (fun n low high => ?_) fun _ _ _ _ => rfl)
    unfold InHeap
    omega
  · intro exact
    obtain ⟨-, brk, floor⟩ := ready.moved nonzero m (h.renewed cpu)
    obtain ⟨-, p, there, -⟩ := exact.mapped (addr / 4096) (by rw [InHeap, brk, floor]; omega)
    have gone := after.free (addr / 4096) (by omega) (by omega) (by omega)
    rw [after.space.virtToPhysRaw_page (by omega) (by omega), gone] at there
    cases there

/-! ## Stores -/

theorem Ready.store (stepped : h.step mapper cpu (.store virt word) = some h') : Ready cpu top h' := by
  unfold step at stepped
  dsimp only at stepped
  split_ifs at stepped with allowed
  · obtain ⟨phys, found, rfl⟩ := map_eq_some_iff.mp stepped
    have user : virt < 2 ^ 47 := allowed.1
    rw [ready.heap.space.virtToPhysRaw_eq user] at found
    obtain ⟨⟨p, b⟩, page, rfl⟩ := map_eq_some_iff.mp found
    have frame : IsFrame p := (ready.heap.space.toTree.page user page).2.1 ▸ isFrame_frameAddr _
    refine ⟨ready.task, ready.aligned, ready.limit, ready.ordered, ready.bounded, ?_⟩
    rw [frameAddr_or_low frame]
    exact ready.heap.store ready.room user page _ word
  · cases stepped
    exact ready

/-! ## Steps and runs -/

theorem Ready.judged_grow (grow : h.asks cpu addr = .grow) (inside : addr ≤ top)
    (run : h.machine.mapHeapPages mapper h.machine.cr3 (h.brk cpu) addr = some (ok, m)) :
    if ok then
      Judged mapper cpu top h addr addr (h.sched.setTaskHeapBrk (h.sched.currentTaskId cpu) addr) m
    else Judged mapper cpu top h addr (WORD - 1) h.sched m := by
  obtain ⟨took, done, failed⟩ := ready.grow grow inside run
  cases ok with
  | true =>
    have limit : USER_SPACE_LIMIT ≤ WORD - 1 := by decide
    have below := (brkAction_grow grow).2.1
    exact .inl ⟨by simp [clean, grow, run], done rfl, fun no => by omega⟩
  | false =>
    by_cases empty : h.machine.allocFrame = some (none, h.machine)
    · cases mapHeapPages_empty empty run
      exact .inl ⟨by simp [clean, grow, empty], ready.idle, fun _ => unchanged_self h⟩
    · obtain ⟨p, was, gone⟩ := took.2.resolve_left fun same => empty (failed rfl same)
      refine .inr ⟨?_, .inl ⟨rfl, fun same => gone (same.frames ▸ was)⟩⟩
      cases alloc : h.machine.allocFrame with
      | none => simp [clean, grow, run, alloc]
      | some got =>
        obtain ⟨frame, m'⟩ := got
        cases frame with
        | some frame => simp [clean, grow, run, alloc]
        | none =>
          cases allocFrame_none alloc
          exact absurd alloc empty

theorem Ready.judged_shrink (shrink : h.asks cpu addr = .shrink)
    (run : h.machine.unmapHeapPages h.machine.cr3 addr (h.brk cpu) = some m) :
    Judged mapper cpu top h addr addr (h.sched.setTaskHeapBrk (h.sched.currentTaskId cpu) addr) m := by
  obtain ⟨m', run', after⟩ := ready.shrink shrink
  cases run.symm.trans run'
  split_ifs at after with even
  · have limit : USER_SPACE_LIMIT ≤ WORD - 1 := by decide
    have below := (brkAction_shrink shrink).2.1
    exact .inl ⟨by simpa [clean, shrink] using even, after, fun no => by omega⟩
  · exact .inr ⟨by simpa [clean, shrink] using even, .inr after⟩

theorem Ready.judged {s : Scheduler} (inside : h.within cpu top (.brk addr) = true)
    (run : sysBrk mapper h.sched h.machine cpu addr = some (result, s, m)) :
    Judged mapper cpu top h addr result s m := by
  unfold sysBrk at run
  dsimp only at run
  split at run
  · next action =>
    obtain ⟨-, rfl, rfl⟩ := run
    have action : h.asks cpu addr = .query := action
    exact .inl ⟨by simp [clean, action], ready.idle, fun _ => unchanged_self h⟩
  · next action =>
    obtain ⟨-, rfl, rfl⟩ := run
    have action : h.asks cpu addr = .refuse := action
    exact .inl ⟨by simp [clean, action], ready.idle, fun _ => unchanged_self h⟩
  · next action =>
    have action : h.asks cpu addr = .grow := action
    have inside : addr ≤ top := by simpa [within, action] using inside
    split at run
    · cases run
    · next m' failing =>
      obtain ⟨rfl, rfl, rfl⟩ := run
      exact ready.judged_grow action inside failing
    · next m' grown =>
      obtain ⟨rfl, rfl, rfl⟩ := run
      exact ready.judged_grow action inside grown
  · next action =>
    obtain ⟨m', shrunk, same⟩ := map_eq_some_iff.mp run
    obtain ⟨rfl, rfl, rfl⟩ := same
    exact ready.judged_shrink action shrunk

theorem Ready.returns (unclean : h.clean mapper cpu (.brk addr) = false) :
    ∃ result s m, sysBrk mapper h.sched h.machine cpu addr = some (result, s, m) := by
  unfold sysBrk
  dsimp only
  split
  · exact ⟨_, _, _, rfl⟩
  · exact ⟨_, _, _, rfl⟩
  · next grow =>
    have grow : h.asks cpu addr = .grow := grow
    simp only [clean, grow, Bool.or_eq_false_iff, bne_eq_false_iff_eq] at unclean
    obtain ⟨⟨ok, m⟩, run, rfl⟩ := map_eq_some_iff.mp unclean.1
    rw [show h.machine.mapHeapPages mapper h.machine.cr3 (h.sched.taskHeapBrk _) addr = _ from run]
    exact ⟨_, _, _, rfl⟩
  · next shrink =>
    obtain ⟨m, run, -⟩ := ready.shrink shrink
    rw [show h.machine.unmapHeapPages h.machine.cr3 addr (h.sched.taskHeapBrk _) = _ from run]
    exact ⟨_, _, _, rfl⟩

theorem Ready.step (inside : h.within cpu top act = true)
    (clean : h.clean mapper cpu act = true) (stepped : h.step mapper cpu act = some h') :
    Ready cpu top h' := by
  cases act with
  | store virt word => exact ready.store stepped
  | brk addr =>
    obtain ⟨⟨result, s, m⟩, run, rfl⟩ := map_eq_some_iff.mp stepped
    rcases ready.judged inside run with ⟨-, after, -⟩ | ⟨unclean, -⟩
    · exact after
    · rw [clean] at unclean
      cases unclean

theorem Ready.clean_iff (inside : h.within cpu top act = true) :
    h.clean mapper cpu act = true ↔ Good mapper cpu top h act := by
  constructor
  · intro clean
    refine ⟨fun h' stepped => (ready.step inside clean stepped).exact, ?_⟩
    rintro addr rfl s m run
    rcases ready.judged inside run with ⟨-, -, same⟩ | ⟨unclean, -⟩
    · exact same rfl
    · rw [clean] at unclean
      cases unclean
  · rintro ⟨exact, unchanged⟩
    cases act with
    | store virt word => rfl
    | brk addr =>
      by_contra unclean
      rw [Bool.not_eq_true] at unclean
      obtain ⟨result, s, m, run⟩ := ready.returns unclean
      rcases ready.judged inside run with ⟨clean, -⟩ | ⟨-, ⟨rfl, changed⟩ | inexact⟩
      · rw [clean] at unclean
        cases unclean
      · exact changed (unchanged addr rfl s m run)
      · exact inexact (exact _ (by rw [HeapRun.step, run]; rfl))

theorem Ready.good_iff {acts : List HeapAct}
    (inside : Along (HeapRun.step mapper cpu) (fun h act => h.within cpu top act = true) acts h) :
    Along (HeapRun.step mapper cpu) (Good mapper cpu top) acts h ↔
      Along (HeapRun.step mapper cpu) (fun h act => h.clean mapper cpu act = true) acts h := by
  refine Iff.symm (along_congr_under (Ready cpu top) ?_ ?_ ready inside)
  · exact fun h act h' ready below clean => ready.step below clean
  · exact fun h act ready below => ready.clean_iff below

end

/-- A task whose heap is empty, in a range where nothing is mapped. -/
structure Fresh (cpu top : Nat) (h : HeapRun) : Prop where
  task : (h.sched.getTask (h.sched.currentTaskId cpu)).isSome = true
  aligned : top % 4096 = 0
  limit : top ≤ USER_SPACE_LIMIT
  empty : h.brk cpu = h.floor cpu
  space : Space h.machine (pageBase h.machine.cr3)
  unmapped : ∀ n, h.floor cpu / 4096 ≤ n → n < top / 4096 →
    h.machine.virtToPhysRaw h.machine.cr3 (4096 * n) = none

theorem Fresh.ready (fresh : Fresh cpu top h) : Ready cpu top h := by
  have limit : top ≤ 2 ^ 47 := fresh.limit
  refine ⟨fresh.task, fresh.aligned, fresh.limit, fresh.empty.ge, .inr fresh.empty, fresh.space, ?_, ?_⟩
  · intro n _ _ inHeap
    exact absurd inHeap.1 (Nat.not_lt.mpr fresh.empty.le)
  · intro n low high _
    have none := fresh.unmapped n low high
    rw [fresh.space.virtToPhysRaw_page (by omega) (by omega)] at none
    exact map_eq_none_iff.mp none

/-- In every run from an empty heap that stays below `top`, the heap is exact and failed
    calls leave no trace as long as, and only as long as, growth succeeds or finds no frame
    at all and shrinks end at page boundaries or at the floor. -/
theorem heap_exact_iff (mapper : Mapper) (cpu : Nat) {top : Nat} {h : HeapRun} (fresh : Fresh cpu top h)
    (acts : List HeapAct)
    (inside : Along (step mapper cpu) (fun h act => h.within cpu top act = true) acts h) :
    Along (step mapper cpu) (Good mapper cpu top) acts h ↔
      Along (step mapper cpu) (fun h act => h.clean mapper cpu act = true) acts h :=
  fresh.ready.good_iff inside

/-- A task without a heap yet, in the space of a machine. -/
def newborn (m : Machine) : HeapRun := ⟨alone plain, m, fun _ _ => 0⟩

theorem fresh_newborn : Fresh 0 USER_SPACE_LIMIT (newborn (forkMachine 0 0x5007)) := by
  refine ⟨by decide +kernel, by decide, le_rfl, by decide +kernel,
    space_of_low rfl (by decide +kernel) (by decide +kernel) (by decide +kernel), ?_⟩
  intro n low high
  have floor : (newborn (forkMachine 0 0x5007)).floor 0 / 4096 = 0x600000000 := by decide +kernel
  have limit : USER_SPACE_LIMIT / 4096 = 0x800000000 := by decide
  -- the only table below the PML4 belongs to the first 512 GiB
  have index : tableIndex 3 (4096 * n) ≠ 0 := by
    rw [tableIndex, show 0x1FF = 2 ^ 9 - 1 by decide, Nat.and_two_pow_sub_one_eq_mod,
      Nat.shiftRight_eq_div_pow]
    omega
  have word : (forkMachine 0 0x5007).mem 0x1000 (tableIndex 3 (4096 * n)) = 0 := if_pos index
  have root : pageBase (newborn (forkMachine 0 0x5007)).machine.cr3 = 0x1000 := by decide +kernel
  rw [virtToPhysRaw, root]
  simp only [virtWalk, newborn, word]
  rfl

/-- The heap grows over one page and a half, the program writes to the second page, and the
    heap shrinks to the first. -/
theorem heap_exact_newborn :
    let acts := [.brk (DEFAULT_HEAP_BRK + 0x1800), .store (DEFAULT_HEAP_BRK + 0x1000) 42,
      .brk (DEFAULT_HEAP_BRK + 0x1000), .store DEFAULT_HEAP_BRK 7]
    Fresh 0 USER_SPACE_LIMIT (newborn (forkMachine 0 0x5007)) ∧
      Along (step offsetPageTable 0) (Good offsetPageTable 0 USER_SPACE_LIMIT) acts
        (newborn (forkMachine 0 0x5007)) ∧
      ((exec (step offsetPageTable 0) acts (newborn (forkMachine 0 0x5007))).map fun h =>
        (h.brk 0, h.words 0x600000000 0)) = some (DEFAULT_HEAP_BRK + 0x1000, 7) := by
  intro acts
  refine ⟨fresh_newborn, ?_, by decide +kernel⟩
  exact (heap_exact_iff offsetPageTable 0 fresh_newborn acts (by decide +kernel)).mpr (by decide +kernel)

/-- Five frames of memory: a page, three tables, and one more page. -/
def scarce : Machine :=
  { forkMachine 0 0x5007 with
    fa := FrameAllocator.FRAME_ALLOCATOR.planRegions { bootPlan with memoryMap := [⟨0x100000, 0x5000, 0⟩] } }

/-- A shrink into the middle of the second page unmaps it with what the program has stored
    below the new break; a growth by three pages that fails at the third keeps the first
    two mapped. -/
theorem torn_page_and_leaked_pages :
    let torn := [.brk (DEFAULT_HEAP_BRK + 0x1800), .store (DEFAULT_HEAP_BRK + 0x1000) 42,
      .brk (DEFAULT_HEAP_BRK + 0x1400)]
    ((exec (step offsetPageTable 0) torn (newborn (forkMachine 0 0x5007))).map fun h =>
        (h.brk 0, h.machine.virtToPhysRaw h.machine.cr3 (DEFAULT_HEAP_BRK + 0x1000))) =
      some (DEFAULT_HEAP_BRK + 0x1400, none) ∧
    ¬ Along (step offsetPageTable 0) (Good offsetPageTable 0 USER_SPACE_LIMIT) torn
      (newborn (forkMachine 0 0x5007)) ∧
    ((sysBrk offsetPageTable (alone plain) scarce 0 (DEFAULT_HEAP_BRK + 0x3000)).map fun (result, _, m) =>
        (result, m.virtToPhysRaw m.cr3 DEFAULT_HEAP_BRK)) = some (WORD - 1, some 0x100000) ∧
    ¬ Along (step offsetPageTable 0) (Good offsetPageTable 0 USER_SPACE_LIMIT)
      [.brk (DEFAULT_HEAP_BRK + 0x3000)] (newborn scarce) := by
  intro torn
  have failed : ((sysBrk offsetPageTable (alone plain) scarce 0 (DEFAULT_HEAP_BRK + 0x3000)).map
      fun (result, _, m) => (result, m.virtToPhysRaw m.cr3 DEFAULT_HEAP_BRK)) =
      some (WORD - 1, some 0x100000) := by decide +kernel
  refine ⟨by decide +kernel, fun along => ?_, failed, ?_⟩
  · have clean := (fresh_newborn.ready.good_iff (by decide +kernel)).mp along
    exact absurd clean (by decide +kernel)
  · rintro ⟨⟨-, unchanged⟩, -⟩
    obtain ⟨⟨result, s, m⟩, run, same⟩ := map_eq_some_iff.mp failed
    obtain ⟨rfl, there⟩ := Prod.mk.inj same
    have before := (unchanged _ rfl s m run).translations DEFAULT_HEAP_BRK
    rw [there] at before
    exact absurd before (by decide +kernel)

end HeapRun

end Zenus.Sched
