import Zenus.Mem.Forest
import Zenus.Sys.ShmFrames

/-! # Segments and the spaces they are mapped in

The invariant that ties the table of segments to the page tables of the tasks: the frames
of the segments are in use and apart from each other, a page shows one of them only where
a task has attached the segment, and a segment has more references than attachments.

Each call is a sequence of the changes below: a label in the table of segments, a table of
areas, the pages of one space together with the list of attachments, a segment more or
less, frames taken or given back.
-/

namespace Zenus.Sys.Shared

open Mem Mem.Machine Sched Sched.Scheduler Function List Option Shared

def Root (s : Shared) (r : Nat) : Prop := ∃ id t, s.sched.getTask id = some t ∧ pageBase t.cr3 = r

/-- The area that `shmat` has recorded. -/
def area (s : Shared) (b : Attachment) : VmaRegion :=
  ⟨b.start, b.start + 4096 * (s.segments b.slot).pages, 3, 1, 0, 0, true⟩

def Covers (s : Shared) (b : Attachment) (r n : Nat) : Prop :=
  (∃ t, s.sched.getTask b.task = some t ∧ pageBase t.cr3 = r) ∧ b.start ≤ 4096 * n ∧
    4096 * n < b.start + 4096 * (s.segments b.slot).pages

/-- A segment that is attached from page `a` of the task on: the area is recorded, and the
    pages show the frames. -/
structure Attached (s : Shared) (b : Attachment) (t : Task) (a : Nat) : Prop where
  task : s.sched.getTask b.task = some t
  start : b.start = 4096 * a
  room : 4096 * (a + (s.segments b.slot).pages) ≤ 2 ^ 47
  valid : (s.segments b.slot).valid = true
  area : s.area b ∈ t.vma.live
  shown : ∀ i < (s.segments b.slot).pages,
    ShowsFrame s.machine (pageBase t.cr3) (a + i) ((s.segments b.slot).phys + i * 0x1000)

def uses (list : List Attachment) (slot : Fin MAX_SHMSEG) : Nat := list.countP (·.slot == slot)

structure Sound (s : Shared) : Prop where
  forest : Forest s.machine s.Root
  areas : ∀ id t, s.sched.getTask id = some t → t.vma.Inv
  used : ∀ r n f, s.Root r → ShowsFrame s.machine r n f → f ∉ s.machine.fa.avail
  positive : ∀ i, (s.segments i).valid = true → 0 < (s.segments i).pages
  held : ∀ i, (s.segments i).valid = true → ∀ f ∈ (s.segments i).run,
    IsFrame f ∧ f ∉ s.machine.fa.avail ∧ ∀ r, s.Root r → ¬ IsTable s.machine r f
  disjoint : ∀ i j f, (s.segments i).valid = true → (s.segments j).valid = true →
    f ∈ (s.segments i).run → f ∈ (s.segments j).run → i = j
  owner : ∀ r n f i, s.Root r → ShowsFrame s.machine r n f → (s.segments i).valid = true →
    f ∈ (s.segments i).run → ∃ b ∈ s.attachments, b.slot = i ∧ s.Covers b r n
  attached : ∀ b ∈ s.attachments, ∃ t a, s.Attached b t a
  single : ∀ b ∈ s.attachments, ∀ b' ∈ s.attachments, ∀ r n, s.Covers b r n → s.Covers b' r n →
    b.task = b'.task ∧ b.start = b'.start
  count : ∀ i, (s.segments i).valid = true → uses s.attachments i < (s.segments i).attached

variable {s : Shared} {slot : Fin MAX_SHMSEG} {b b' : Attachment} {t : Task} {vma : VmaTable}
variable {m' : Machine}
  {list : List Attachment} {task r a n f start : Nat} {seg seg' : ShmSegment}

/-! ## Attachments -/

section

variable (attached : s.Attached b t a)

include attached

theorem Attached.covers_iff :
    s.Covers b r n ↔ pageBase t.cr3 = r ∧ a ≤ n ∧ n < a + (s.segments b.slot).pages := by
  have start := attached.start
  constructor
  · rintro ⟨⟨t', here, same⟩, low, high⟩
    cases attached.task.symm.trans here
    exact ⟨same, by omega, by omega⟩
  · rintro ⟨same, low, high⟩
    exact ⟨⟨t, attached.task, same⟩, by omega, by omega⟩

theorem Attached.shows (covers : s.Covers b r n) : ∃ f, ShowsFrame s.machine r n f := by
  obtain ⟨rfl, low, high⟩ := attached.covers_iff.mp covers
  have shown := attached.shown (n - a) (by omega)
  rw [show a + (n - a) = n by omega] at shown
  exact ⟨_, shown⟩

theorem Attached.root : s.Root (pageBase t.cr3) := ⟨b.task, t, attached.task, rfl⟩

theorem Attached.remap
    (pages : ∀ n f, s.Covers b (pageBase t.cr3) n → ShowsFrame s.machine (pageBase t.cr3) n f →
      ShowsFrame m' (pageBase t.cr3) n f) : Attached { s with machine := m', attachments := list } b t a := by
  refine ⟨attached.task, attached.start, attached.room, attached.valid, attached.area, fun i inside => ?_⟩
  exact pages _ _ (attached.covers_iff.mpr ⟨rfl, by omega, by have : i < (s.segments b.slot).pages := inside; omega⟩)
    (attached.shown i inside)

end

theorem uses_eq_zero (nothing : ∀ b ∈ list, b.slot ≠ slot) : uses list slot = 0 :=
  countP_eq_zero.mpr fun b member => by simpa using nothing b member

theorem uses_cons : uses (b :: list) slot = uses list slot + if b.slot = slot then 1 else 0 := by
  rw [uses, countP_cons]
  simp only [beq_iff_eq]
  rfl

theorem uses_filter_le (keep : Attachment → Bool) : uses (list.filter keep) slot ≤ uses list slot :=
  filter_sublist.countP_le

theorem uses_filter_lt {keep : Attachment → Bool} (member : b ∈ list) (dropped : keep b = false) :
    uses (list.filter keep) b.slot < uses list b.slot := by
  have split := countP_eq_countP_filter_add list (·.slot == b.slot) keep
  have one : 0 < (list.filter fun a => !keep a).countP (·.slot == b.slot) :=
    countP_pos_iff.mpr ⟨b, mem_filter.mpr ⟨member, by simp [dropped]⟩, beq_self_eq_true _⟩
  simp only [uses]
  omega

/-! ## The table of segments -/

/-- Another entry for a segment that exists. -/
structure Same (seg seg' : ShmSegment) : Prop where
  valid : seg.valid = true
  phys : seg'.phys = seg.phys
  size : seg'.size = seg.size

theorem Same.pages (same : Same seg seg') : seg'.pages = seg.pages := by
  rw [ShmSegment.pages, ShmSegment.pages, same.size]

theorem Same.run (same : Same seg seg') : seg'.run = seg.run := by
  rw [ShmSegment.run, ShmSegment.run, same.phys, same.pages]

/-- A segment of frames that nobody uses. -/
structure Fresh (s : Shared) (seg : ShmSegment) : Prop where
  positive : 0 < seg.pages
  frame : ∀ f ∈ seg.run, IsFrame f
  used : ∀ f ∈ seg.run, f ∉ s.machine.fa.avail
  tables : ∀ f ∈ seg.run, ∀ r, s.Root r → ¬ IsTable s.machine r f
  pages : ∀ f ∈ seg.run, ∀ r n, s.Root r → ¬ ShowsFrame s.machine r n f
  others : ∀ f ∈ seg.run, ∀ j, (s.segments j).valid = true → f ∉ (s.segments j).run

section

variable (sound : Sound s)

include sound

/-- The table has changed, perhaps by a new segment; those that are attached are still
    there. -/
theorem Sound.retable (slot : Fin MAX_SHMSEG) {segments : Fin MAX_SHMSEG → ShmSegment}
    (each : ∀ i, (segments i).valid = true → Same (s.segments i) (segments i) ∨ i = slot ∧ Fresh s (segments i))
    (kept : ∀ b ∈ s.attachments, (segments b.slot).valid = true ∧ Same (s.segments b.slot) (segments b.slot))
    (count : ∀ i, (segments i).valid = true → uses s.attachments i < (segments i).attached) :
    Sound { s with segments := segments } := by
  have covers : ∀ b ∈ s.attachments, ∀ r n, Covers { s with segments := segments } b r n ↔ s.Covers b r n := by
    intro b member r n
    simp only [Covers, (kept b member).2.pages]
  refine ⟨sound.forest, sound.areas, sound.used, ?_, ?_, ?_, ?_, ?_, ?_, count⟩
  · intro i valid
    rcases each i valid with same | ⟨-, fresh⟩
    · exact same.pages ▸ sound.positive i same.valid
    · exact fresh.positive
  · intro i valid f mem
    rcases each i valid with same | ⟨-, fresh⟩
    · exact sound.held i same.valid f (same.run ▸ mem)
    · exact ⟨fresh.frame f mem, fresh.used f mem, fresh.tables f mem⟩
  · intro i j f valid valid' mem mem'
    rcases each i valid with same | ⟨here, fresh⟩ <;> rcases each j valid' with same' | ⟨here', fresh'⟩
    · exact sound.disjoint i j f same.valid same'.valid (same.run ▸ mem) (same'.run ▸ mem')
    · exact absurd (same.run ▸ mem) (fresh'.others f mem' i same.valid)
    · exact absurd (same'.run ▸ mem') (fresh.others f mem j same'.valid)
    · exact here.trans here'.symm
  · intro r n f i root shows valid mem
    rcases each i valid with same | ⟨-, fresh⟩
    · obtain ⟨b, member, slot, covers'⟩ := sound.owner r n f i root shows same.valid (same.run ▸ mem)
      exact ⟨b, member, slot, (covers b member r n).mpr covers'⟩
    · exact absurd shows (fresh.pages f mem r n root)
  · intro b member
    obtain ⟨t, a, attached⟩ := sound.attached b member
    obtain ⟨valid, same⟩ := kept b member
    refine ⟨t, a, attached.task, attached.start, ?_, valid, ?_, ?_⟩
    · simp only [same.pages]
      exact attached.room
    · simp only [area, same.pages]
      exact attached.area
    · simp only [same.pages, same.phys]
      exact attached.shown
  · intro b member b' member' r n first second
    exact sound.single b member b' member' r n ((covers b member r n).mp first) ((covers b' member' r n).mp second)

theorem Sound.slot_valid (member : b ∈ s.attachments) : (s.segments b.slot).valid = true := by
  obtain ⟨t, a, attached⟩ := sound.attached b member
  exact attached.valid

variable (seg : ShmSegment)

theorem Sound.relabel (same : Same (s.segments slot) seg)
    (valid : seg.valid = true) (count : uses s.attachments slot < seg.attached) :
    Sound (s.setSegment slot seg) := by
  have entry : ∀ i, (s.segments i).valid = true → ((s.setSegment slot seg).segments i).valid = true ∧
      Same (s.segments i) ((s.setSegment slot seg).segments i) := by
    intro i old
    by_cases here : i = slot
    · subst here
      simp only [setSegment, update_self]
      exact ⟨valid, same⟩
    · simp only [setSegment, update_of_ne here]
      exact ⟨old, old, rfl, rfl⟩
  have old : ∀ i, ((s.setSegment slot seg).segments i).valid = true → (s.segments i).valid = true := by
    intro i now
    by_cases here : i = slot
    · exact here ▸ same.valid
    · simpa only [setSegment, update_of_ne here] using now
  refine sound.retable slot (fun i now => .inl (entry i (old i now)).2)
    (fun b member => entry _ (sound.slot_valid member)) fun i now => ?_
  by_cases here : i = slot
  · subst here
    simpa only [update_self] using count
  · simpa only [update_of_ne here] using sound.count i (old i now)

theorem Sound.addSegment (unused : (s.segments slot).valid = false)
    (fresh : Fresh s seg) (reference : 0 < seg.attached) : Sound (s.setSegment slot seg) := by
  have other : ∀ b ∈ s.attachments, b.slot ≠ slot := by
    intro b member same
    rw [← same, sound.slot_valid member] at unused
    cases unused
  refine sound.retable slot (fun i valid => ?_) (fun b member => ?_) fun i valid => ?_
  · by_cases here : i = slot
    · subst here
      rw [update_self]
      exact .inr ⟨rfl, fresh⟩
    · rw [update_of_ne here] at valid ⊢
      exact .inl ⟨valid, rfl, rfl⟩
  · rw [update_of_ne (other b member)]
    exact ⟨sound.slot_valid member, sound.slot_valid member, rfl, rfl⟩
  · by_cases here : i = slot
    · subst here
      rw [update_self]
      exact (uses_eq_zero other).trans_lt reference
    · rw [update_of_ne here] at valid ⊢
      exact sound.count i valid

theorem Sound.dropSegment (gone : seg.valid = false)
    (nothing : ∀ b ∈ s.attachments, b.slot ≠ slot) : Sound (s.setSegment slot seg) := by
  have there : ∀ i, (update s.segments slot seg i).valid = true → i ≠ slot := by
    rintro i valid rfl
    rw [update_self, gone] at valid
    cases valid
  refine sound.retable slot (fun i valid => ?_) (fun b member => ?_) fun i valid => ?_
  · have here := there i valid
    rw [update_of_ne here] at valid ⊢
    exact .inl ⟨valid, rfl, rfl⟩
  · rw [update_of_ne (nothing b member)]
    exact ⟨sound.slot_valid member, sound.slot_valid member, rfl, rfl⟩
  · have here := there i valid
    rw [update_of_ne here] at valid ⊢
    exact sound.count i valid

theorem Sound.log (taken : Fin MAX_SHMSEG → List Nat) (returned : List Nat) :
    Sound { s with taken := taken, returned := returned } :=
  ⟨sound.forest, sound.areas, sound.used, sound.positive, sound.held, sound.disjoint, sound.owner,
    fun b member =>
      have ⟨t, a, attached⟩ := sound.attached b member
      ⟨t, a, attached.task, attached.start, attached.room, attached.valid, attached.area, attached.shown⟩,
    sound.single, sound.count⟩

end

/-! ## Areas -/

section

variable (s : Shared) (task : Nat) (vma : VmaTable)

theorem getTask_setVma (id : Nat) :
    (s.setVma task vma).sched.getTask id =
      (s.sched.getTask id).map fun t => if id = task then { t with vma := vma } else t := by
  by_cases same : id = task
  · subst same
    simp only [setVma, if_true]
    exact getTask_changeTask fun _ => rfl
  · simp only [if_neg same, Option.map_id_fun', id_eq]
    exact getTask_changeTask_other (fun _ => rfl) same

theorem rootOf_setVma (id r : Nat) :
    (∃ t, (s.setVma task vma).sched.getTask id = some t ∧ pageBase t.cr3 = r) ↔
      ∃ t, s.sched.getTask id = some t ∧ pageBase t.cr3 = r := by
  constructor
  · rintro ⟨t, here, root⟩
    rw [getTask_setVma] at here
    obtain ⟨t₀, before, rfl⟩ := map_eq_some_iff.mp here
    refine ⟨t₀, before, ?_⟩
    split_ifs at root <;> exact root
  · rintro ⟨t, here, root⟩
    refine ⟨_, (getTask_setVma ..).trans (congrArg _ here), ?_⟩
    split_ifs <;> exact root

theorem root_setVma : (s.setVma task vma).Root = s.Root :=
  funext fun r => propext (exists_congr fun id => rootOf_setVma s task vma id r)

theorem covers_setVma :
    (s.setVma task vma).Covers b r n ↔ s.Covers b r n :=
  and_congr (rootOf_setVma s task vma b.task r) Iff.rfl

end

section

variable (sound : Sound s)

include sound

theorem Sound.setVma (task : Nat) (inv : vma.Inv)
    (areas : ∀ b ∈ s.attachments, b.task = task → s.area b ∈ vma.live) : Sound (s.setVma task vma) := by
  have root := root_setVma s task vma
  refine ⟨root ▸ sound.forest, ?_, root ▸ sound.used, sound.positive, root ▸ sound.held, sound.disjoint, ?_, ?_, ?_,
    sound.count⟩
  · intro id t here
    rw [getTask_setVma] at here
    obtain ⟨t₀, before, rfl⟩ := map_eq_some_iff.mp here
    split_ifs
    · exact inv
    · exact sound.areas id t₀ before
  · rw [root]
    simp only [covers_setVma]
    exact sound.owner
  · intro b member
    obtain ⟨t, a, attached⟩ := sound.attached b member
    refine ⟨_, a, (getTask_setVma ..).trans (congrArg _ attached.task), attached.start, attached.room,
      attached.valid, ?_, ?_⟩
    · split_ifs with same
      · exact areas b member same
      · exact attached.area
    · split_ifs <;> exact attached.shown
  · simp only [covers_setVma]
    exact sound.single

/-! ## Pages -/

theorem Sound.remap (here : s.Root r) (change : Local s.machine m' r)
    (pages : ∀ n f, ShowsFrame m' r n f → ShowsFrame s.machine r n f ∨
      ∃ b ∈ list, (s.segments b.slot).valid = true ∧ f ∈ (s.segments b.slot).run ∧ s.Covers b r n)
    (dropped : ∀ b ∈ s.attachments, b ∉ list → ∀ r' n, s.Covers b r' n → r' = r ∧ ∀ f, ¬ ShowsFrame m' r n f)
    (attached : ∀ b ∈ list, ∃ t a, Attached { s with machine := m', attachments := list } b t a)
    (single : ∀ b ∈ list, ∀ b' ∈ list, ∀ r n, s.Covers b r n → s.Covers b' r n →
      b.task = b'.task ∧ b.start = b'.start)
    (count : ∀ i, (s.segments i).valid = true → uses list i < (s.segments i).attached) :
    Sound { s with machine := m', attachments := list } := by
  have changed := sound.forest.change here change
  -- what a page shows has been shown there before or belongs to an attachment
  have before : ∀ r' n f, s.Root r' → ShowsFrame m' r' n f → ShowsFrame s.machine r' n f ∨
      r' = r ∧ ∃ b ∈ list, (s.segments b.slot).valid = true ∧ f ∈ (s.segments b.slot).run ∧ s.Covers b r n := by
    intro r' n f root shows
    by_cases same : r' = r
    · subst same
      exact (pages n f shows).imp_right fun new => ⟨rfl, new⟩
    · exact .inl ((changed.shown r' root same n f).mp shows)
  refine ⟨changed.forest, sound.areas, ?_, sound.positive, ?_, sound.disjoint, ?_, attached, single, count⟩
  · intro r' n f root shows free
    rcases before r' n f root shows with old | ⟨-, b, -, valid, mem, -⟩
    · exact sound.used r' n f root old (change.sub free)
    · exact (sound.held _ valid f mem).2.1 (change.sub free)
  · intro i valid f mem
    obtain ⟨isFrame, used, other⟩ := sound.held i valid f mem
    refine ⟨isFrame, fun free => used (change.sub free), fun r' root table => ?_⟩
    exact (changed.tables r' root f table).elim (other r' root) used
  · intro r' n f i root shows valid mem
    rcases before r' n f root shows with old | ⟨rfl, b, member, valid', mem', covers⟩
    · obtain ⟨b, member, slot, covers⟩ := sound.owner r' n f i root old valid mem
      by_cases kept : b ∈ list
      · exact ⟨b, kept, slot, covers⟩
      · obtain ⟨rfl, no⟩ := dropped b member kept r' n covers
        exact absurd shows (no f)
    · exact ⟨b, member, sound.disjoint _ _ f valid' valid mem' mem, covers⟩

theorem Sound.samePages (here : s.Root r) (change : Local s.machine m' r)
    (same : ∀ n, 4096 * n < 2 ^ 47 → pageWord m' r n = pageWord s.machine r n) : Sound { s with machine := m' } := by
  have changed := sound.forest.change here change
  have shows : ∀ r', s.Root r' → ∀ n f, ShowsFrame m' r' n f ↔ ShowsFrame s.machine r' n f := by
    intro r' root n f
    by_cases other : r' = r
    · subst other
      exact and_congr_right fun user => by rw [same n user]
    · exact changed.shown r' root other n f
  refine sound.remap here change (fun n f now => .inl ((shows r here n f).mp now))
    (fun b member no => absurd member no) (fun b member => ?_) sound.single sound.count
  obtain ⟨t, a, attached⟩ := sound.attached b member
  exact ⟨t, a, attached.remap fun n f _ => (shows _ attached.root n f).mpr⟩

theorem Sound.attaches (segment : s.segments slot = seg)
    (found : s.sched.getTask task = some t) (valid : seg.valid = true) (room : 4096 * (a + seg.pages) ≤ 2 ^ 47)
    (recorded : ⟨4096 * a, 4096 * a + 4096 * seg.pages, 3, 1, 0, 0, true⟩ ∈ t.vma.live)
    (attaches : Attaches s.machine m' (pageBase t.cr3) a seg.pages seg.phys)
    (vacant : ∀ n, a ≤ n → n < a + seg.pages → pageWord s.machine (pageBase t.cr3) n = 0)
    (mapped : ∀ n, a ≤ n → n < a + seg.pages → pageWord m' (pageBase t.cr3) n ≠ 0)
    (count : uses s.attachments slot + 1 < seg.attached) :
    Sound { s with machine := m', attachments := ⟨task, 4096 * a, slot⟩ :: s.attachments } := by
  subst segment
  have here : s.Root (pageBase t.cr3) := ⟨task, t, found, rfl⟩
  have changed := sound.forest.change here attaches.toLocal
  have frame : ∀ i < (s.segments slot).pages,
      pageBase ((s.segments slot).phys + i * 0x1000) = (s.segments slot).phys + i * 0x1000 := fun i inside =>
    (sound.held slot valid _ (mem_run.mpr ⟨i, inside, rfl⟩)).1.pageBase
  have covers : ∀ n, a ≤ n → n < a + (s.segments slot).pages →
      s.Covers ⟨task, 4096 * a, slot⟩ (pageBase t.cr3) n := fun n low high =>
    ⟨⟨t, found, rfl⟩, by dsimp only; omega, by dsimp only; omega⟩
  -- the pages of an older attachment were mapped, so they are others
  have older : ∀ b ∈ s.attachments, ∀ n, s.Covers b (pageBase t.cr3) n →
      ¬ (a ≤ n ∧ n < a + (s.segments slot).pages) := by
    intro b member n covers inside
    obtain ⟨t', a', attached⟩ := sound.attached b member
    obtain ⟨f, -, shown, -⟩ := attached.shows covers
    exact shown (vacant n inside.1 inside.2)
  have within : ∀ r n, s.Covers ⟨task, 4096 * a, slot⟩ r n → r = pageBase t.cr3 ∧ a ≤ n ∧
      n < a + (s.segments slot).pages := by
    rintro r n ⟨⟨t', there, rfl⟩, low, high⟩
    cases found.symm.trans there
    dsimp only at low high
    exact ⟨rfl, by omega, by omega⟩
  refine sound.remap here attaches.toLocal (fun n f now => ?_) (fun b member no => ?_) (fun b member => ?_) ?_ ?_
  · obtain ⟨user, some, rfl⟩ := now
    rcases attaches.pages n user with same | ⟨⟨low, high⟩, -, -, address⟩
    · rw [same] at some ⊢
      exact .inl ⟨user, some, rfl⟩
    · refine .inr ⟨_, .head _, valid, mem_run.mpr ⟨n - a, by dsimp only; omega, ?_⟩, covers n low high⟩
      rw [address, frame (n - a) (by omega)]
  · exact absurd (.tail _ member) no
  · rcases member with _ | ⟨_, member⟩
    · refine ⟨t, a, found, rfl, room, valid, recorded, fun i inside => ?_⟩
      have inside : i < (s.segments slot).pages := inside
      have user : 4096 * (a + i) < 2 ^ 47 := by omega
      refine ⟨user, mapped _ (by omega) (by omega), ?_⟩
      rcases attaches.pages (a + i) user with same | ⟨-, -, -, address⟩
      · exact absurd (same.trans (vacant _ (by omega) (by omega))) (mapped _ (by omega) (by omega))
      · dsimp only
        rw [address, Nat.add_sub_cancel_left, frame i inside]
    · obtain ⟨t', a', attached⟩ := sound.attached b member
      refine ⟨t', a', attached.remap fun n f covers shows => ?_⟩
      by_cases other : pageBase t'.cr3 = pageBase t.cr3
      · rw [other] at covers shows ⊢
        obtain ⟨user, some, rfl⟩ := shows
        rcases attaches.pages n user with same | ⟨inside, -⟩
        · exact ⟨user, same ▸ some, same ▸ rfl⟩
        · exact absurd inside (older b member n covers)
      · exact (changed.shown _ attached.root other n f).mpr shows
  · intro b member b' member' r n first second
    rcases mem_cons.mp member with rfl | member <;> rcases member' with _ | ⟨_, member'⟩
    · exact ⟨rfl, rfl⟩
    · obtain ⟨rfl, inside⟩ := within r n first
      exact absurd inside (older b' member' n second)
    · obtain ⟨rfl, inside⟩ := within r n second
      exact absurd inside (older b member n first)
    · exact sound.single b member b' member' r n first second
  · intro i now
    rw [uses_cons]
    split_ifs with same
    · obtain rfl : slot = i := same
      exact count
    · exact sound.count i now

theorem Sound.same_pages (attached : s.Attached b t a) (member' : b' ∈ s.attachments)
    (task : b'.task = b.task) (start : b'.start = b.start) (covers : s.Covers b' r n) : s.Covers b r n := by
  obtain ⟨t', a', attached'⟩ := sound.attached b' member'
  obtain rfl : t' = t := some.inj ((task ▸ attached'.task).symm.trans attached.task)
  have contains : ∀ b, (s.segments b.slot).valid = true → (s.area b).contains b.start = true := fun b valid =>
    VmaTable.contains_iff.mpr ⟨rfl, le_rfl, by have := sound.positive _ valid; simp only [area]; omega⟩
  have same := (sound.areas _ t' attached.task).unique attached.area attached'.area (contains b attached.valid)
    (start ▸ contains b' attached'.valid)
  have length := congrArg VmaRegion.endAddr same
  simp only [area, start] at length
  obtain ⟨space, low, high⟩ := covers
  exact ⟨task ▸ space, start ▸ low, by omega⟩

theorem Sound.cleared (attached : s.Attached b t a)
    (clears : Clears s.machine m' (pageBase t.cr3) a (s.segments b.slot).pages) (root : s.Root r) :
    ShowsFrame m' r n f ↔ ShowsFrame s.machine r n f ∧ ¬ s.Covers b r n := by
  rw [attached.covers_iff]
  by_cases space : pageBase t.cr3 = r
  · subst space
    constructor
    · rintro ⟨user, some, address⟩
      rw [clears.pages n user] at some address
      by_cases inside : a ≤ n ∧ n < a + (s.segments b.slot).pages
      · rw [if_pos inside] at some
        exact absurd rfl some
      · rw [if_neg inside] at some address
        exact ⟨⟨user, some, address⟩, fun both => inside both.2⟩
    · rintro ⟨⟨user, some, address⟩, no⟩
      have same := (clears.pages n user).trans (if_neg fun inside => no ⟨rfl, inside⟩)
      exact ⟨user, same ▸ some, same ▸ address⟩
  · rw [and_iff_left fun both => space both.1]
    exact (sound.forest.change attached.root clears.toLocal).shown r root (Ne.symm space) n f

end

/-- The attachments of a task that do not start at an address. -/
def others (list : List Attachment) (task start : Nat) : List Attachment :=
  list.filter fun b => !(b.task == task && b.start == start)

theorem mem_others : b ∈ others list task start ↔ b ∈ list ∧ ¬ (b.task = task ∧ b.start = start) := by
  simp [others, mem_filter, imp_iff_not_or]

theorem Sound.clears (sound : Sound s) (attached : s.Attached b t a) (member : b ∈ s.attachments)
    (clears : Clears s.machine m' (pageBase t.cr3) a (s.segments b.slot).pages) :
    Sound { s with machine := m', attachments := others s.attachments b.task b.start } := by
  refine sound.remap attached.root clears.toLocal
    (fun n f now => .inl ((sound.cleared attached clears attached.root).mp now).1) ?_ ?_ ?_ ?_
  · intro b' member' no r n covers
    have same : b'.task = b.task ∧ b'.start = b.start := by
      by_contra other
      exact no (mem_others.mpr ⟨member', other⟩)
    have covers := sound.same_pages attached member' same.1 same.2 covers
    obtain ⟨rfl, -⟩ := attached.covers_iff.mp covers
    exact ⟨rfl, fun f shows => ((sound.cleared attached clears attached.root).mp shows).2 covers⟩
  · intro b' kept
    obtain ⟨member', other⟩ := mem_others.mp kept
    obtain ⟨t', a', attached'⟩ := sound.attached b' member'
    refine ⟨t', a', attached'.remap fun n f covers shows => ?_⟩
    exact (sound.cleared attached clears attached'.root).mpr
      ⟨shows, fun both => other (sound.single b' member' b member _ n covers both)⟩
  · intro b₁ kept b₂ kept'
    exact sound.single b₁ (mem_others.mp kept).1 b₂ (mem_others.mp kept').1
  · exact fun i valid => (uses_filter_le _).trans_lt (sound.count i valid)

/-! ## Frames -/

theorem Sound.allocator (sound : Sound s) (m' : Machine) (wf : m'.fa.Wf) (store : m'.mem = s.machine.mem)
    (tables : ∀ r, s.Root r → ∀ f, IsTable s.machine r f → f ∉ m'.fa.avail)
    (shown : ∀ r n f, s.Root r → ShowsFrame s.machine r n f → f ∉ m'.fa.avail)
    (segments : ∀ i, (s.segments i).valid = true → ∀ f ∈ (s.segments i).run, f ∉ m'.fa.avail) :
    Sound { s with machine := m' } := by
  have same : ∀ r n f, ShowsFrame m' r n f ↔ ShowsFrame s.machine r n f := fun r n f => by
    rw [ShowsFrame, ShowsFrame, pageWord, pageWord, store]
  refine ⟨sound.forest.allocator wf store tables, sound.areas, ?_, sound.positive, ?_, sound.disjoint, ?_, ?_,
    sound.single, sound.count⟩
  · exact fun r n f root shows => shown r n f root ((same r n f).mp shows)
  · intro i valid f mem
    obtain ⟨isFrame, -, other⟩ := sound.held i valid f mem
    refine ⟨isFrame, segments i valid f mem, fun r root table => other r root ?_⟩
    rwa [IsTable, store] at table
  · exact fun r n f i root shows => sound.owner r n f i root ((same r n f).mp shows)
  · intro b member
    obtain ⟨t, a, attached⟩ := sound.attached b member
    exact ⟨t, a, attached.task, attached.start, attached.room, attached.valid, attached.area,
      fun i inside => (same ..).mpr (attached.shown i inside)⟩

end Zenus.Sys.Shared
