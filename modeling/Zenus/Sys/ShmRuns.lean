import Zenus.Sys.ShmInv

/-! # Runs of the shared-memory calls

Tasks create, attach, detach and remove segments in any order.  A segment's frames are
returned only when no task maps them, and `shmdt` removes what the task has attached and
drops a reference of that segment, exactly as long as no segment is removed that is
attached, and `shmdt` is called for an attachment whose segment is the first one that was
last attached at this address, by whichever task.
-/

namespace Zenus.Sys.Shared

open Lib.Word Lib.Run Mem Mem.Machine Mem.VmaTable Sched Sched.Scheduler Function List Option Nat

inductive ShmCall where
  | get (key size : Nat)
  | attach (shmid : Nat)
  | detach (shmaddr : Nat)
  | remove (shmid : Nat)
  deriving DecidableEq, Repr

def perform (mapper : Mapper) (s : Shared) (task : Nat) : ShmCall → Option (Nat × Shared)
  | .get key size => s.sysShmget key size
  | .attach shmid => s.sysShmat mapper task shmid
  | .detach shmaddr => s.sysShmdt task shmaddr
  | .remove shmid => s.sysShmctl shmid IPC_RMID

def shmStep (mapper : Mapper) (s : Shared) (call : Nat × ShmCall) : Option Shared :=
  (s.perform mapper call.1 call.2).map Prod.snd

/-! ## What is wanted -/

def Maps (s : Shared) (task n f : Nat) : Prop :=
  ∃ t, s.sched.getTask task = some t ∧ 4096 * n < 2 ^ 47 ∧ s.machine.virtToPhysRaw t.cr3 (4096 * n) = some f

/-- What has been returned between two states is not mapped by any task. -/
def ReturnsUnmapped (s s' : Shared) : Prop :=
  ∀ back, s'.returned = back ++ s.returned → ∀ f ∈ back, ∀ task n, ¬ s'.Maps task n f

/-- An attachment is removed: its pages and its area, and a reference of its segment. -/
structure Removes (s s' : Shared) (b : Attachment) : Prop where
  own : b ∈ s.attachments
  pages : ∀ task t, s.sched.getTask task = some t → ∀ n, 4096 * n < 2 ^ 47 →
    (s.Covers b (pageBase t.cr3) n → s'.machine.virtToPhysRaw t.cr3 (4096 * n) = none) ∧
    (¬ s.Covers b (pageBase t.cr3) n →
      s'.machine.virtToPhysRaw t.cr3 (4096 * n) = s.machine.virtToPhysRaw t.cr3 (4096 * n))
  areas : ∀ task t, s.sched.getTask task = some t → ∃ t', s'.sched.getTask task = some t' ∧ t'.cr3 = t.cr3 ∧
    ∀ r, r ∈ t'.vma.live ↔ r ∈ t.vma.live ∧ ¬ (task = b.task ∧ r.start = b.start)
  reference : (s'.segments b.slot).attached + 1 = (s.segments b.slot).attached
  others : ∀ i, i ≠ b.slot → s'.segments i = s.segments i

/-- A call keeps what the segments promise to their users. -/
def Safe (mapper : Mapper) (s : Shared) (call : Nat × ShmCall) : Prop :=
  ∀ result s', s.perform mapper call.1 call.2 = some (result, s') → ReturnsUnmapped s s' ∧
    ∀ addr, call.2 = .detach addr → result ≠ WORD - 1 →
      ∃ b, b.task = call.1 ∧ (s.area b).contains addr = true ∧ Removes s s' b

/-! ## What it takes -/

/-- `shmget` is given consecutive frames, and `shmat` maps all of the pages, which were not
    mapped before: neither call looks. -/
def Plentiful (mapper : Mapper) (s : Shared) (call : Nat × ShmCall) : Prop :=
  match call.2 with
  | .get key size => s.findKey key = none → ∀ made ∈ s.create key size, ∀ slot ∈ made.1,
      Consecutive (made.2.taken slot)
  | .attach shmid => ∀ slot : Fin MAX_SHMSEG, slot.val = shmid → ∀ t ∈ s.sched.getTask call.1,
      ∀ start ∈ t.vma.findFree (s.segments slot).size SHM_HINT, ∀ i < (s.segments slot).pages,
        s.machine.virtToPhysRaw t.cr3 (start + i * 0x1000) = none ∧
          ∀ made ∈ s.sysShmat mapper call.1 shmid, made.1 ≠ WORD - 1 →
            made.2.machine.virtToPhysRaw t.cr3 (start + i * 0x1000) ≠ none
  | _ => True

/-- A segment that is removed is not attached, and what is detached is an attachment, whose
    segment is found by the address. -/
def Orderly (s : Shared) (call : Nat × ShmCall) : Prop :=
  match call.2 with
  | .detach addr => validateUserRange addr 1 = true → ∀ t ∈ s.sched.getTask call.1,
      ∀ r ∈ (t.vma.find addr).map t.vma.regions, r.flags &&& MAP_SHARED ≠ 0 →
        ∃ slot ∈ s.findByMappedAt r.start, ⟨call.1, r.start, slot⟩ ∈ s.attachments
  | .remove shmid => ∀ slot : Fin MAX_SHMSEG, slot.val = shmid → (s.segments slot).valid = true →
      ∀ b ∈ s.attachments, b.slot ≠ slot
  | _ => True

variable {s s' : Shared} {slot : Fin MAX_SHMSEG} {b : Attachment} {t : Task} {r : VmaRegion} {mapper : Mapper}
  {m' : Machine} {call : Nat × ShmCall} {task key size shmid addr result a n f cr3 addr' : Nat} {new frames : List Nat}

/-! ## `shmget` -/

theorem Sound.grown (sound : Sound s) (store : m'.mem = s.machine.mem)
    (grown : Grown s.machine m' new) : Sound { s with machine := m' } := by
  refine sound.allocator m' grown.wf store (fun r root f table => ?_) (fun r n f root shows => ?_)
    fun i valid f mem => ?_
  · obtain ⟨d, deep, v, user, here⟩ := table
    exact grown.keeps_used ((sound.forest.tree r root).used deep user here)
  · exact grown.keeps_used (sound.used r n f root shows)
  · exact grown.keeps_used (sound.held i valid f mem).2.1

theorem Sound.creates (sound : Sound s) (creates : Creates s s' slot key size frames)
    (consecutive : Consecutive frames) : Sound s' := by
  obtain ⟨store, isFrame, new, perm, grown⟩ := creates.taken
  have sound₁ := sound.grown store grown
  have fresh : ∀ f ∈ (s'.segments slot).run, f ∈ frames ∧ f ∈ s.machine.fa.avail ∧ f ∉ s'.machine.fa.avail := by
    intro f mem
    rw [creates.run] at mem
    have mem := consecutive.mem_iff.mpr mem
    exact ⟨mem, grown.fresh f (perm.mem_iff.mpr mem)⟩
  have segment : s'.segments slot = ⟨key, size, frames.headD 0, 1, 0, true⟩ := by
    rw [creates.state]
    exact update_self ..
  rw [segment] at fresh
  have positive : 0 < (size + 0xFFF) / 0x1000 := by
    have := creates.bounds.1
    omega
  have sound₂ := sound₁.addSegment ⟨key, size, frames.headD 0, 1, 0, true⟩ creates.unused ?_ one_pos
  · have := sound₂.log (update s.taken slot frames) s.returned
    rw [creates.state]
    exact this
  refine ⟨positive, fun f mem => isFrame f (fresh f mem).1, fun f mem => (fresh f mem).2.2, ?_, ?_, ?_⟩
  · rintro f mem r root ⟨d, deep, v, user, here⟩
    rw [store] at here
    exact (sound.forest.tree r root).used deep user here (fresh f mem).2.1
  · intro f mem r n root shows
    refine sound.used r n f root ?_ (fresh f mem).2.1
    rwa [ShowsFrame, pageWord, store] at shows
  · exact fun f mem j valid mem' => (sound.held j valid f mem').2.1 (fresh f mem).2.1

theorem Sound.get (sound : Sound s) (plenty : Plentiful mapper s (task, .get key size))
    (run : s.sysShmget key size = some (result, s')) : Sound s' ∧ s'.returned = s.returned := by
  obtain ⟨⟨found, s₁⟩, made, same⟩ := map_eq_some_iff.mp run
  obtain rfl : s₁ = s' := by
    cases found <;> exact (Prod.mk.inj same).2
  unfold findOrCreate at made
  split at made
  · next slot known =>
    cases made
    have valid : (s.segments slot).valid = true := by
      have := find?_some known
      simp only [Bool.and_eq_true] at this
      exact this.1
    exact ⟨sound.relabel _ ⟨valid, rfl, rfl⟩ valid ((sound.count slot valid).trans (lt_succ_self _)), rfl⟩
  · next none =>
    rcases create_cases sound.forest.wf made with ⟨slot, frames, rfl, creates⟩ | ⟨-, state, lost⟩
    · have consecutive := plenty none _ made slot rfl
      have taken : s₁.taken slot = frames := by
        rw [creates.state]
        exact update_self ..
      rw [taken] at consecutive
      exact ⟨sound.creates creates consecutive, by rw [creates.state]⟩
    · rw [state]
      refine ⟨?_, rfl⟩
      rcases lost with same | ⟨count, lost⟩
      · exact same ▸ sound
      · obtain ⟨frames, ⟨store, -, new, -, grown⟩, -⟩ := takeFrames_spec sound.forest.wf lost
        exact sound.grown store grown

/-! ## `shmat` -/

theorem Sound.attach (sound : Sound s) (plenty : Plentiful mapper s (task, .attach shmid))
    (run : s.sysShmat mapper task shmid = some (result, s')) : Sound s' ∧ s'.returned = s.returned := by
  rcases sysShmat_cases run with ⟨-, rfl⟩ | ⟨slot, t, a, attempts, attach⟩
  · exact ⟨sound, rfl⟩
  have here : s.Root (pageBase t.cr3) := ⟨task, t, attempts.task, rfl⟩
  have tree := sound.forest.tree _ here
  have room : 4096 * (a + (s.segments slot).pages) ≤ 2 ^ 47 :=
    attempts.room.trans (by unfold MAX_MAPPING_SIZE; decide)
  have plenty : ∀ n, a ≤ n → n < a + (s.segments slot).pages →
      s.machine.virtToPhysRaw t.cr3 (4096 * n) = none ∧ (result ≠ WORD - 1 →
        s'.machine.virtToPhysRaw t.cr3 (4096 * n) ≠ none) := by
    intro n low high
    have both := plenty slot attempts.known t attempts.task (4096 * a) attempts.found (n - a) (by omega)
    rw [show 4096 * a + (n - a) * 0x1000 = 4096 * n by omega] at both
    exact ⟨both.1, both.2 _ run⟩
  have vacant : ∀ n, a ≤ n → n < a + (s.segments slot).pages → pageWord s.machine (pageBase t.cr3) n = 0 := by
    intro n low high
    by_contra mapped
    have none := (plenty n low high).1
    rw [tree.virtToPhysRaw_page (by omega), if_neg mapped] at none
    cases none
  obtain ⟨ok, m, pages, outcome⟩ := attach_cases attach
  obtain ⟨attaches, short⟩ := attachPages_spec tree room pages
  rcases outcome with ⟨-, rfl, -⟩ | ⟨-, rfl⟩ | ⟨i, vma, rfl, inserted, rfl⟩
  · -- the frames of a segment are addresses
    obtain ⟨i, inside, long⟩ := short rfl
    have small := (sound.held slot attempts.valid _ (mem_run.mpr ⟨i, inside, rfl⟩)).1.lt
    rw [WORD_eq] at long
    omega
  · have clears := detachPages_spec attaches.tree room
    refine ⟨sound.samePages here (attaches.toLocal.trans clears.toLocal) fun n user => ?_, rfl⟩
    rw [clears.pages n user]
    by_cases inside : a ≤ n ∧ n < a + (s.segments slot).pages
    · rw [if_pos inside, vacant n inside.1 inside.2]
    · rw [if_neg inside]
      exact (attaches.pages n user).resolve_right fun new => inside new.1
  · have mapped : ∀ n, a ≤ n → n < a + (s.segments slot).pages → pageWord m (pageBase t.cr3) n ≠ 0 := by
      intro n low high zero
      refine (plenty n low high).2 (by rw [WORD_eq]; omega) ?_
      have none := attaches.tree.virtToPhysRaw_page (n := n) (by omega)
      rwa [if_pos zero] at none
    obtain ⟨-, -, -, -, -, live⟩ := live_insert_some inserted
    have inv := inv_insert (sound.areas task t attempts.task) (4096 * a)
      (4096 * (a + (s.segments slot).pages)) 3 1
    rw [inserted] at inv
    have count := sound.count slot attempts.valid
    have sound₁ := sound.relabel
      { s.segments slot with mappedAt := 4096 * a, attached := (s.segments slot).attached + 1 }
      ⟨attempts.valid, rfl, rfl⟩ attempts.valid (count.trans (lt_succ_self _))
    have sound₂ := sound₁.setVma task inv
      fun b member same => by
        obtain ⟨t', a', attached⟩ := sound₁.attached b member
        cases (same ▸ attached.task).symm.trans attempts.task
        rw [live]
        exact mem_append_left _ attached.area
    refine ⟨?_, rfl⟩
    refine sound₂.attaches (update_self ..) (t := { t with vma := vma }) ?_ attempts.valid room ?_ attaches
      vacant mapped (succ_lt_succ count)
    · rw [getTask_setVma]
      exact (congrArg _ attempts.task).trans (by rw [map_some, if_pos rfl])
    · rw [live]
      refine mem_append_right _ (mem_singleton.mpr ?_)
      rw [mul_add]
      rfl

/-! ## `shmdt` -/

/-- The area that `shmdt` finds. -/
structure Targets (s : Shared) (task addr : Nat) (t : Task) (r : VmaRegion) : Prop where
  user : validateUserRange addr 1 = true
  task : s.sched.getTask task = some t
  found : (t.vma.find addr).map t.vma.regions = some r
  shared : r.flags &&& MAP_SHARED ≠ 0

theorem Targets.mem (targets : Targets s task addr t r) : r ∈ t.vma.live ∧ r.contains addr = true := by
  obtain ⟨idx, found, rfl⟩ := map_eq_some_iff.mp targets.found
  obtain ⟨inside, here⟩ := firstIdx_some found
  exact ⟨regions_mem_live inside, here⟩

theorem segments_dropArea (s : Shared) (task : Nat) (t : Task) (r : VmaRegion) :
    (s.dropArea task t r).segments = s.segments := by
  unfold dropArea
  split <;> rfl

theorem sysShmdt_targets (targets : Targets s task addr t r) :
    s.sysShmdt task addr = ((s.findByMappedAt r.start).elim (some (s.dropArea task t r))
      (s.dropArea task t r).detach).map fun s => (0, s) := by
  have search : (s.dropArea task t r).findByMappedAt r.start = s.findByMappedAt r.start := by
    rw [findByMappedAt, segments_dropArea]
    rfl
  simp only [sysShmdt, targets.user, targets.task, targets.found, targets.shared, search, if_false,
    Bool.true_eq_false]
  cases s.findByMappedAt r.start <;> rfl

theorem sysShmdt_refused (nothing : ∀ t r, ¬ Targets s task addr t r) : s.sysShmdt task addr = some (WORD - 1, s) := by
  unfold sysShmdt
  split
  · rfl
  · next user =>
    split
    · rfl
    · next t task =>
      split
      · rfl
      · next r found =>
        rw [if_pos]
        by_contra shared
        exact nothing t r ⟨by simpa using user, task, found, shared⟩

theorem orderly_detach_iff : Orderly s (task, .detach addr) ↔ ∀ t r, Targets s task addr t r →
    ∃ slot, s.findByMappedAt r.start = some slot ∧ ⟨task, r.start, slot⟩ ∈ s.attachments := by
  constructor
  · exact fun orderly t r targets => orderly targets.user t targets.task r targets.found targets.shared
  · exact fun orderly user t task r found shared => orderly t r ⟨user, task, found, shared⟩

/-- What `shmdt` does to the area of an attachment. -/
structure Drops (s s' : Shared) (b : Attachment) : Prop where
  sound : Sound s'
  pages : ∀ r n f, s.Root r → (ShowsFrame s'.machine r n f ↔ ShowsFrame s.machine r n f ∧ ¬ s.Covers b r n)
  areas : ∀ task t, s.sched.getTask task = some t → ∃ t', s'.sched.getTask task = some t' ∧ t'.cr3 = t.cr3 ∧
    ∀ r, r ∈ t'.vma.live ↔ r ∈ t.vma.live ∧ ¬ (task = b.task ∧ r.start = b.start)
  segments : s'.segments = s.segments
  returned : s'.returned = s.returned
  uses : uses s'.attachments b.slot < uses s.attachments b.slot

theorem Sound.dropArea (sound : Sound s) (member : b ∈ s.attachments) (found : s.sched.getTask b.task = some t) :
    Drops s (s.dropArea b.task t (s.area b)) b := by
  obtain ⟨t', a, attached⟩ := sound.attached b member
  obtain rfl := some.inj (attached.task.symm.trans found)
  obtain ⟨idx, search, live⟩ := (sound.areas _ _ found).remove_found attached.area
  have clears := detachPages_spec (sound.forest.tree _ attached.root) attached.room
  have state : s.dropArea b.task t' (s.area b) = Shared.setVma
      { s with
        machine := detachPages t'.cr3 (4096 * a) (s.segments b.slot).pages s.machine
        attachments := others s.attachments b.task b.start } b.task (t'.vma.remove idx).2 := by
    have length : ((s.area b).endAddr - (s.area b).start) / 0x1000 = (s.segments b.slot).pages := by
      simp only [area]
      omega
    unfold Shared.dropArea
    rw [search, length, ← attached.start]
    rfl
  rw [state]
  refine ⟨?_, fun r n f root => sound.cleared attached clears root, fun task t here => ?_, rfl, rfl, ?_⟩
  · refine (sound.clears attached member clears).setVma b.task (inv_remove (sound.areas _ _ found) idx) ?_
    intro b' kept same
    obtain ⟨member', other⟩ := mem_others.mp kept
    obtain ⟨t₂, a', attached'⟩ := sound.attached b' member'
    obtain rfl := some.inj ((same ▸ attached'.task).symm.trans found)
    exact (live _).mpr ⟨attached'.area, fun start => other ⟨same, start⟩⟩
  · refine ⟨_, (getTask_setVma ..).trans (congrArg _ here), ?_⟩
    by_cases same : task = b.task
    · subst same
      obtain rfl := some.inj (here.symm.trans found)
      simp only [if_true, true_and, live]
      exact fun r => Iff.rfl
    · dsimp only
      rw [if_neg same]
      exact ⟨rfl, fun r => (and_iff_left fun both => same both.1).symm⟩
  · exact uses_filter_lt member (by simp)

theorem Drops.virtToPhysRaw (drops : Drops s s' b) (sound : Sound s) (root : s.Root (pageBase cr3))
    (root' : s'.Root (pageBase cr3)) (user : 4096 * n < 2 ^ 47) :
    (s.Covers b (pageBase cr3) n → s'.machine.virtToPhysRaw cr3 (4096 * n) = none) ∧
      (¬ s.Covers b (pageBase cr3) n →
        s'.machine.virtToPhysRaw cr3 (4096 * n) = s.machine.virtToPhysRaw cr3 (4096 * n)) := by
  have shows : ∀ f, s'.machine.virtToPhysRaw cr3 (4096 * n) = some f ↔
      s.machine.virtToPhysRaw cr3 (4096 * n) = some f ∧ ¬ s.Covers b (pageBase cr3) n := by
    intro f
    have before := (sound.forest.tree _ root).shown_iff (n := n) (f := f)
    have after := (drops.sound.forest.tree _ root').shown_iff (n := n) (f := f)
    rw [and_iff_right user] at before after
    rw [← after, ← before, drops.pages _ n f root]
  constructor
  · intro covers
    refine eq_none_iff_forall_ne_some.mpr fun f shown => ((shows f).mp shown).2 covers
  · exact fun other => Option.ext fun f => (shows f).trans (and_iff_left other)

theorem detach_segments (valid : (s.segments slot).valid = true) (nonzero : 0 < (s.segments slot).attached)
    (run : s.detach slot = .some s') : (s'.segments slot).attached + 1 = (s.segments slot).attached := by
  rw [detach, if_neg (by simp [valid]), if_neg (by omega)] at run
  split_ifs at run with last
  · obtain ⟨fa, -, rfl⟩ := map_eq_some_iff.mp run
    simp only [setSegment, update_idem, update_self]
    omega
  · cases run
    simp only [setSegment, update_self]
    omega

theorem detach_shared (valid : (s.segments slot).valid = true) (more : 1 < (s.segments slot).attached) :
    s.detach slot = some (s.setSegment slot { s.segments slot with attached := (s.segments slot).attached - 1 }) := by
  rw [detach, if_neg (by simp [valid]), if_neg (by omega)]
  rw [if_neg (by omega)]

theorem detach_some (all : ∀ f ∈ (s.segments slot).run, IsFrame f) : ∃ s', s.detach slot = some s' := by
  rw [detach]
  split_ifs
  · exact ⟨_, rfl⟩
  · exact ⟨_, rfl⟩
  · refine ⟨_, release_some fun f mem => all f ?_⟩
    simp only [setSegment, update_self] at mem
    exact mem
  · exact ⟨_, rfl⟩

theorem findByMappedAt_valid (found : s.findByMappedAt addr = some slot) : (s.segments slot).valid = true := by
  have := find?_some found
  simp only [Bool.and_eq_true] at this
  exact this.1

theorem Targets.area (targets : Targets s task addr t r) (sound : Sound s) (member : b ∈ s.attachments)
    (own : b.task = task) (here : r.contains addr' = true) (inside : (s.area b).contains addr' = true) :
    s.area b = r := by
  obtain ⟨t', a, attached⟩ := sound.attached b member
  cases (own ▸ attached.task).symm.trans targets.task
  exact (sound.areas _ _ targets.task).unique attached.area targets.mem.1 inside here

theorem Sound.detach (sound : Sound s) (targets : Targets s task addr t r)
    (found : s.findByMappedAt r.start = some slot) (member : ⟨task, r.start, slot⟩ ∈ s.attachments)
    (run : s.sysShmdt task addr = some (result, s')) : Sound s' ∧ s'.returned = s.returned ∧
      (s.area ⟨task, r.start, slot⟩).contains addr = true ∧ Removes s s' ⟨task, r.start, slot⟩ := by
  have valid := findByMappedAt_valid found
  have contains : ∀ r : VmaRegion, r.valid = true → r.start < r.endAddr → r.contains r.start = true :=
    fun r valid order => contains_iff.mpr ⟨valid, le_rfl, order⟩
  have inv := sound.areas _ _ targets.task
  have area : s.area ⟨task, r.start, slot⟩ = r := targets.area sound member rfl
    (contains r (inv.valid r targets.mem.1) (inv.nonempty r targets.mem.1))
    (contains (s.area ⟨task, r.start, slot⟩) rfl
      (by have := sound.positive slot valid; simp only [Shared.area]; omega))
  have drops := sound.dropArea member targets.task
  have fewer := drops.uses
  have count := sound.count slot valid
  rw [area] at drops
  have segment : (s.dropArea task t r).segments slot = s.segments slot := congrFun drops.segments slot
  rw [sysShmdt_targets targets, found, elim_some, detach_shared (by rw [segment, valid]) (by
    rw [segment]; dsimp only at fewer; omega), map_some, segment] at run
  cases run
  have after : Sound ((s.dropArea task t r).setSegment slot
      { s.segments slot with attached := (s.segments slot).attached - 1 }) := by
    refine drops.sound.relabel _ ⟨by rw [segment, valid], by rw [segment], by rw [segment]⟩ valid ?_
    have fewer := drops.uses
    dsimp only at fewer ⊢
    omega
  refine ⟨after, drops.returned, area ▸ targets.mem.2, member, fun task' t' here n user => ?_, drops.areas, ?_, ?_⟩
  · obtain ⟨t'', there, space, -⟩ := drops.areas task' t' here
    exact drops.virtToPhysRaw sound ⟨task', t', here, rfl⟩ ⟨task', t'', there, by rw [space]⟩ user
  · simp only [setSegment, update_self]
    omega
  · intro i other
    simp only [setSegment, drops.segments]
    exact update_of_ne other ..

theorem returnsUnmapped_of_eq (same : s'.returned = s.returned) : ReturnsUnmapped s s' := by
  intro back log f mem
  rw [same, self_eq_append_left] at log
  rw [log] at mem
  cases mem

theorem Sound.orderly_of_safe_detach (sound : Sound s) (safe : Safe mapper s (task, .detach addr)) :
    Orderly s (task, .detach addr) := by
  rw [orderly_detach_iff]
  intro t r targets
  have run := sysShmdt_targets targets
  have same := segments_dropArea s task t r
  cases found : s.findByMappedAt r.start with
  | none =>
    rw [found] at run
    obtain ⟨b, -, -, removes⟩ := (safe 0 _ run).2 addr rfl (by rw [WORD_eq]; decide)
    have reference := removes.reference
    rw [same] at reference
    omega
  | some slot =>
    have valid := findByMappedAt_valid found
    obtain ⟨s', detached⟩ : ∃ s', (s.dropArea task t r).detach slot = some s' :=
      detach_some fun f mem => (sound.held slot valid f (by rwa [same] at mem)).1
    rw [found, elim_some, detached] at run
    obtain ⟨b, own, inside, removes⟩ := (safe 0 _ run).2 addr rfl (by rw [WORD_eq]; decide)
    have start : b.start = r.start :=
      congrArg VmaRegion.start (targets.area sound removes.own own targets.mem.2 inside)
    have count := sound.count slot valid
    have reference := detach_segments (by rw [same, valid]) (by rw [same]; omega) detached
    -- the segment that has lost a reference is that of the attachment
    have here : slot = b.slot := by
      by_contra other
      rw [same, removes.others slot other] at reference
      omega
    refine ⟨slot, rfl, ?_⟩
    rw [← show b.task = task from own, ← start, here]
    exact removes.own

/-! ## `shmctl` -/

theorem sysShmctl_cases (s : Shared) (shmid : Nat) :
    (∃ slot : Fin MAX_SHMSEG, slot.val = shmid ∧ (s.segments slot).valid = true ∧
      s.sysShmctl shmid IPC_RMID = (s.release slot).map fun s => (0, s)) ∨
    s.sysShmctl shmid IPC_RMID = some (0, s) ∧
      ∀ slot : Fin MAX_SHMSEG, slot.val = shmid → (s.segments slot).valid = false := by
  by_cases known : shmid < MAX_SHMSEG
  · by_cases valid : (s.segments ⟨shmid, known⟩).valid = true
    · exact .inl ⟨⟨shmid, known⟩, rfl, valid, by simp [sysShmctl, known, valid]⟩
    · refine .inr ⟨by simp [sysShmctl, known, valid], ?_⟩
      rintro slot rfl
      simpa using valid
  · refine .inr ⟨by simp [sysShmctl, known], ?_⟩
    rintro slot rfl
    exact absurd slot.isLt known

theorem run_nodup (seg : ShmSegment) : seg.run.Nodup :=
  nodup_range.map fun i j same => by omega

theorem Sound.released (sound : Sound s) (valid : (s.segments slot).valid = true)
    (nothing : ∀ b ∈ s.attachments, b.slot ≠ slot) : Sound (s.released slot) := by
  have held := sound.held slot valid
  obtain ⟨wf, only⟩ := foldl_freeFrame sound.forest.wf (run_nodup (s.segments slot)) fun f mem =>
    ⟨(held f mem).1, (held f mem).2.1⟩
  have dropped := sound.dropSegment { s.segments slot with valid := false } rfl nothing
  have freed := dropped.allocator
    { s.machine with fa := (s.segments slot).run.foldl FrameAllocator.freeFrame s.machine.fa } wf rfl ?_ ?_ ?_
  · exact freed.log s.taken _
  · rintro r root f ⟨d, deep, v, user, here⟩ free
    rcases only f free with mem | free
    · exact (held f mem).2.2 r root ⟨d, deep, v, user, here⟩
    · exact (sound.forest.tree r root).used deep user here free
  · intro r n f root shows free
    rcases only f free with mem | free
    · obtain ⟨b, member, same, -⟩ := sound.owner r n f slot root shows valid mem
      exact nothing b member same
    · exact sound.used r n f root shows free
  · intro i now f mem free
    by_cases here : i = slot
    · subst here
      simp [setSegment] at now
    · simp only [setSegment, update_of_ne here] at now mem
      rcases only f free with mem' | free
      · exact here (sound.disjoint i slot f now valid mem mem')
      · exact (sound.held i now f mem).2.1 free

theorem Sound.orderly_of_safe_remove (sound : Sound s) (safe : Safe mapper s (task, .remove shmid)) :
    Orderly s (task, .remove shmid) := by
  rcases sysShmctl_cases s shmid with ⟨slot, rfl, valid, run⟩ | ⟨-, invalid⟩
  · rw [release_some fun f mem => (sound.held slot valid f mem).1, map_some] at run
    intro slot' same _ b member here
    cases Fin.ext same
    obtain ⟨t, a, attached⟩ := sound.attached b member
    have unmapped := (safe 0 _ run).1 _ rfl
    have positive := sound.positive _ valid
    have shown := attached.shown 0 (here ▸ positive)
    obtain ⟨user, mapped⟩ := (sound.forest.tree _ attached.root).shown_iff.mp shown
    refine unmapped _ (mem_reverse.mpr ?_) b.task (a + 0) ⟨t, attached.task, user, mapped⟩
    rw [← here]
    exact mem_run.mpr ⟨0, here ▸ positive, rfl⟩
  · intro slot same valid
    rw [invalid slot same] at valid
    cases valid

theorem Sound.returnsUnmapped_released (sound : Sound s) (valid : (s.segments slot).valid = true)
    (nothing : ∀ b ∈ s.attachments, b.slot ≠ slot) : ReturnsUnmapped s (s.released slot) := by
  rintro back log f mem task n ⟨t, here, user, mapped⟩
  have log : (s.segments slot).run.reverse ++ s.returned = back ++ s.returned := log
  rw [append_left_inj] at log
  rw [← log, mem_reverse] at mem
  have root : s.Root (pageBase t.cr3) := ⟨task, t, here, rfl⟩
  obtain ⟨b, member, same, -⟩ := sound.owner _ n f slot root
    ((sound.forest.tree _ root).shown_iff.mpr ⟨user, mapped⟩) valid mem
  exact nothing b member same

/-! ## Runs -/

theorem Sound.orderly (sound : Sound s) (plenty : Plentiful mapper s call) (orderly : Orderly s call)
    (run : s.perform mapper call.1 call.2 = some (result, s')) : Sound s' ∧ ReturnsUnmapped s s' ∧
      ∀ addr, call.2 = .detach addr → result ≠ WORD - 1 →
        ∃ b, b.task = call.1 ∧ (s.area b).contains addr = true ∧ Removes s s' b := by
  obtain ⟨task, call⟩ := call
  cases call with
  | get key size =>
    obtain ⟨after, returned⟩ := sound.get plenty run
    exact ⟨after, returnsUnmapped_of_eq returned, fun _ no => by cases no⟩
  | attach shmid =>
    obtain ⟨after, returned⟩ := sound.attach plenty run
    exact ⟨after, returnsUnmapped_of_eq returned, fun _ no => by cases no⟩
  | detach addr =>
    have run : s.sysShmdt task addr = some (result, s') := run
    by_cases reached : ∃ t r, Targets s task addr t r
    · obtain ⟨t, r, targets⟩ := reached
      obtain ⟨slot, found, member⟩ := orderly_detach_iff.mp orderly t r targets
      obtain ⟨after, returned, inside, removes⟩ := sound.detach targets found member run
      refine ⟨after, returnsUnmapped_of_eq returned, fun addr' same _ => ⟨_, rfl, ?_, removes⟩⟩
      cases same
      exact inside
    · push Not at reached
      rw [sysShmdt_refused reached] at run
      cases run
      exact ⟨sound, returnsUnmapped_of_eq rfl, fun _ _ no => absurd rfl no⟩
  | remove shmid =>
    have run : s.sysShmctl shmid IPC_RMID = some (result, s') := run
    rcases sysShmctl_cases s shmid with ⟨slot, rfl, valid, removed⟩ | ⟨same, -⟩
    · rw [removed, release_some fun f mem => (sound.held slot valid f mem).1] at run
      cases run
      have none := orderly slot rfl valid
      exact ⟨sound.released valid none, sound.returnsUnmapped_released valid none, fun _ no => by cases no⟩
    · rw [same] at run
      cases run
      exact ⟨sound, returnsUnmapped_of_eq rfl, fun _ no => by cases no⟩

theorem Sound.safe_iff (sound : Sound s) (plenty : Plentiful mapper s call) :
    Safe mapper s call ↔ Orderly s call := by
  refine ⟨fun safe => ?_, fun orderly result s' run => (sound.orderly plenty orderly run).2⟩
  obtain ⟨task, call⟩ := call
  cases call with
  | get key size => trivial
  | attach shmid => trivial
  | detach addr => exact sound.orderly_of_safe_detach safe
  | remove shmid => exact sound.orderly_of_safe_remove safe

theorem Sound.step (sound : Sound s) (plenty : Plentiful mapper s call) (orderly : Orderly s call)
    (step : shmStep mapper s call = some s') : Sound s' := by
  obtain ⟨⟨result, s''⟩, run, rfl⟩ := map_eq_some_iff.mp step
  exact (sound.orderly plenty orderly run).1

theorem Sound.along_iff (sound : Sound s) (calls : List (Nat × ShmCall))
    (plenty : Along (shmStep mapper) (Plentiful mapper) calls s) :
    Along (shmStep mapper) (Safe mapper) calls s ↔ Along (shmStep mapper) Orderly calls s :=
  along_congr_under Sound
    (fun _ _ _ sound plenty safe step => sound.step plenty ((sound.safe_iff plenty).mp safe) step)
    (fun _ _ sound plenty => sound.safe_iff plenty) sound plenty

/-- A frame of a segment is mapped only where the segment is attached. -/
def Confined (s : Shared) : Prop :=
  ∀ task n f slot, s.Maps task n f → (s.segments slot).valid = true → f ∈ (s.segments slot).run →
    ∃ t, s.sched.getTask task = some t ∧ ∃ b ∈ s.attachments, b.slot = slot ∧ s.Covers b (pageBase t.cr3) n

theorem Sound.confined (sound : Sound s) : Confined s := by
  rintro task n f slot ⟨t, here, mapped⟩ valid mem
  have root : s.Root (pageBase t.cr3) := ⟨task, t, here, rfl⟩
  have shown := (sound.forest.tree _ root).shown_iff.mpr mapped
  exact ⟨t, here, sound.owner _ n f slot root shown valid mem⟩

/-- The tasks have spaces of their own or share one, their pages show frames that are in use,
    and there are no segments. -/
structure Quiet (s : Shared) : Prop where
  forest : Forest s.machine s.Root
  areas : ∀ id t, s.sched.getTask id = some t → t.vma.Inv
  used : ∀ r n f, s.Root r → ShowsFrame s.machine r n f → f ∉ s.machine.fa.avail
  empty : ∀ i, (s.segments i).valid = false
  nobody : s.attachments = []

theorem Quiet.sound (quiet : Quiet s) : Sound s := by
  have never : ∀ {i}, ¬ (s.segments i).valid = true := fun {i} valid => by
    rw [quiet.empty i] at valid
    cases valid
  have nobody : ∀ b, b ∉ s.attachments := fun b member => by
    rw [quiet.nobody] at member
    cases member
  exact ⟨quiet.forest, quiet.areas, quiet.used, fun _ valid => absurd valid never, fun _ valid => absurd valid never,
    fun _ _ _ valid => absurd valid never, fun _ _ _ _ _ _ valid => absurd valid never,
    fun b member => absurd member (nobody b), fun b member => absurd member (nobody b),
    fun _ valid => absurd valid never⟩

/-- In a run whose segments get consecutive frames and are mapped as a whole, all calls are
    safe if and only if all are orderly. -/
theorem segments_outlive_iff (quiet : Quiet s) (calls : List (Nat × ShmCall))
    (plenty : Along (shmStep mapper) (Plentiful mapper) calls s) :
    Along (shmStep mapper) (Safe mapper) calls s ↔ Along (shmStep mapper) Orderly calls s :=
  quiet.sound.along_iff calls plenty

/-- Throughout an orderly run, no task sees a segment that is not attached in its space. -/
theorem segments_confined (quiet : Quiet s) {calls : List (Nat × ShmCall)}
    (plenty : Along (shmStep mapper) (Plentiful mapper) calls s)
    (orderly : Along (shmStep mapper) Orderly calls s) : Always (shmStep mapper) Confined calls s :=
  (plenty.and orderly).always Sound (fun _ _ _ sound both step => sound.step both.1 both.2 step)
    (fun _ sound => sound.confined) quiet.sound

instance (mapper : Mapper) (s : Shared) : (call : Nat × ShmCall) → Decidable (Plentiful mapper s call)
  | (_, .get key size) =>
    inferInstanceAs (Decidable (s.findKey key = none → ∀ made ∈ s.create key size, ∀ slot ∈ made.1,
      Consecutive (made.2.taken slot)))
  | (task, .attach shmid) =>
    inferInstanceAs (Decidable (∀ slot : Fin MAX_SHMSEG, slot.val = shmid → ∀ t ∈ s.sched.getTask task,
      ∀ start ∈ t.vma.findFree (s.segments slot).size SHM_HINT, ∀ i < (s.segments slot).pages,
        s.machine.virtToPhysRaw t.cr3 (start + i * 0x1000) = none ∧
          ∀ made ∈ s.sysShmat mapper task shmid, made.1 ≠ WORD - 1 →
            made.2.machine.virtToPhysRaw t.cr3 (start + i * 0x1000) ≠ none))
  | (_, .detach _) => isTrue trivial
  | (_, .remove _) => isTrue trivial

instance (s : Shared) : (call : Nat × ShmCall) → Decidable (Orderly s call)
  | (_, .get _ _) => isTrue trivial
  | (_, .attach _) => isTrue trivial
  | (task, .detach addr) =>
    inferInstanceAs (Decidable (validateUserRange addr 1 = true → ∀ t ∈ s.sched.getTask task,
      ∀ r ∈ (t.vma.find addr).map t.vma.regions, r.flags &&& MAP_SHARED ≠ 0 →
        ∃ slot ∈ s.findByMappedAt r.start, ⟨task, r.start, slot⟩ ∈ s.attachments))
  | (_, .remove shmid) =>
    inferInstanceAs (Decidable (∀ slot : Fin MAX_SHMSEG, slot.val = shmid → (s.segments slot).valid = true →
      ∀ b ∈ s.attachments, b.slot ≠ slot))

/-- Two tasks with empty spaces, and the idle task. -/
def household : Shared where
  sched := ofTasks [.new 0 0 [], { plain with cr3 := 0x6000 }, { plain with id := 2, cr3 := 0x7000 }] 1
  machine := { Spaces.bootMachine with mem := fun _ _ => 0 }
  segments := noSegments
  taken _ := []
  returned := []
  attachments := []

theorem quiet_household : Quiet household := by
  have tasks : ∀ id t, household.sched.getTask id = some t → t.vma = new ∧ pageBase t.cr3 < 0x100000 := by
    intro id t here
    obtain ⟨i, -, here⟩ := bind_eq_some_iff.mp here
    have member : t ∈ [Task.new 0 0 [], { plain with cr3 := 0x6000 }, { plain with id := 2, cr3 := 0x7000 }] :=
      mem_of_getElem? here
    simp only [mem_cons, not_mem_nil, or_false] at member
    rcases member with rfl | rfl | rfl <;> exact ⟨rfl, by decide⟩
  have low : ∀ r, household.Root r → r ∉ household.machine.fa.avail := by
    rintro r ⟨id, t, here, rfl⟩ free
    have := bootPlan_avail free
    have := (tasks id t here).2
    omega
  have empty : ∀ r, ∀ i < 256, household.machine.mem r i = 0 := fun _ _ _ => rfl
  refine ⟨⟨wf_bootPlan, fun r root => tree_of_empty wf_bootPlan (low r root) (empty r), ?_⟩, ?_, ?_,
    fun _ => rfl, rfl⟩
  · rintro r r' - - different f ⟨d, -, v, user, table⟩ ⟨d', -, v', user', table'⟩
    obtain ⟨-, rfl⟩ := tableAt_empty (empty r) user table
    obtain ⟨-, rfl⟩ := tableAt_empty (empty r') user' table'
    exact different rfl
  · intro id t here
    rw [(tasks id t here).1]
    exact inv_new
  · rintro r n f - ⟨user, some, -⟩
    exact absurd (wordAt_empty (empty r) user 3) some

/-- Two tasks attach the same segment, at the same address, and it is removed when both have
    detached it. -/
theorem segments_outlive_household :
    let calls := [(1, .get 7 0x1800), (1, .attach 0), (2, .get 7 0x1800), (2, .attach 0),
      (1, .detach 0x300000000000), (2, .detach 0x300000001000), (2, .remove 0)]
    Quiet household ∧ (exec (shmStep offsetPageTable) calls household).isSome = true ∧
      Along (shmStep offsetPageTable) (Safe offsetPageTable) calls household := by
  intro calls
  refine ⟨quiet_household, by decide +kernel, ?_⟩
  exact (segments_outlive_iff quiet_household calls (by decide +kernel)).mpr (by decide +kernel)

theorem segments_confined_household : Always (shmStep offsetPageTable) Confined
    [(1, .get 7 0x1800), (1, .attach 0), (2, .get 7 0x1800), (2, .attach 0), (1, .detach 0x300000000000)] household :=
  segments_confined quiet_household (by decide +kernel) (by decide +kernel)

def removal : List (Nat × ShmCall) := [(1, .get 7 0x1000), (1, .attach 0), (1, .remove 0)]

/-- Two tasks attach a segment each, at the same address, and the second one detaches. -/
def confusion : List (Nat × ShmCall) :=
  [(1, .get 7 0x1000), (2, .get 8 0x1000), (1, .attach 0), (2, .attach 1), (2, .detach 0x300000000000)]

/-- The frame of the first segment is returned while the task still has it, and of the two
    segments the wrong one loses a reference. -/
theorem segments_fail_users :
    (exec (shmStep offsetPageTable) removal household).map
        (fun s => (s.returned, s.machine.virtToPhysRaw 0x6000 0x300000000000)) =
      some ([0x100000], some 0x100000) ∧
    (exec (shmStep offsetPageTable) confusion household).map
        (fun s => ((s.segments 0).attached, (s.segments 1).attached, s.attachments)) =
      some (1, 2, [⟨1, 0x300000000000, 0⟩]) ∧
    ¬ Along (shmStep offsetPageTable) (Safe offsetPageTable) removal household ∧
    ¬ Along (shmStep offsetPageTable) (Safe offsetPageTable) confusion household := by
  refine ⟨by decide +kernel, by decide +kernel, fun safe => ?_, fun safe => ?_⟩
  · have orderly := (quiet_household.sound.along_iff removal (by decide +kernel)).mp safe
    exact absurd orderly (by decide +kernel)
  · have orderly := (quiet_household.sound.along_iff confusion (by decide +kernel)).mp safe
    exact absurd orderly (by decide +kernel)

end Zenus.Sys.Shared
