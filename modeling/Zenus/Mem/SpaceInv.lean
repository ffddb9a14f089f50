import Zenus.Mem.PageWords

/-! # Ownership of frames by address spaces

The live spaces own their frames: no frame is listed twice, be it in one space or in
two, none is available to the allocator, and none is a table of the kernel half.
Each primitive of the paging code keeps this.
-/

namespace Zenus.Mem.Machine

open Lib.Radix List

theorem statics_kernelCr3 {m m' : Machine} (same : m'.statics = m.statics) :
    m'.kernelCr3 = m.kernelCr3 :=
  congrArg (fun s => s.2.2.2.1) same

theorem statics_level4Phys {m m' : Machine} (same : m'.statics = m.statics) :
    m'.level4Phys = m.level4Phys :=
  congrArg (fun s => s.2.2.1) same

def live (m : Machine) (roots : List Nat) : List Nat := roots.flatMap (userFrames m.mem)

structure Inv (K : Nat → Set Nat) (m : Machine) (roots : List Nat) : Prop where
  wf : m.fa.Wf
  region : Region m K
  kernel : pageBase m.kernelCr3 ∈ K 3
  boot : m.level4Phys ∈ K 3
  frame : ∀ r ∈ roots, IsFrame r
  nodup : (m.live roots).Nodup
  used : ∀ f ∈ m.live roots, f ∉ m.fa.avail ∧ ∀ a, f ∉ K a
  plain : ∀ r ∈ roots, ∀ i < 256, All mapped Plain m.mem 3 (m.mem r i)
  upper : ∀ r ∈ roots, ∀ i, 256 ≤ i → i < 512 → Into K 3 (m.mem r i)

/-- The machine after boot: the allocator is in order, and a region of tables that
    holds both kernel PML4s is in use. -/
structure Boot (K : Nat → Set Nat) (m : Machine) : Prop where
  wf : m.fa.Wf
  region : Region m K
  kernel : pageBase m.kernelCr3 ∈ K 3
  level4 : m.level4Phys ∈ K 3

variable {K K' : Nat → Set Nat} {m m' m₁ : Machine} {roots : List Nat} {r p virt flags f r' : Nat} {ok : Bool}
  {new roots' fs : List Nat}

theorem Boot.inv (boot : Boot K m) : Inv K m [] :=
  ⟨boot.wf, boot.region, boot.kernel, boot.level4, by simp, nodup_nil, by simp [live], by simp, by simp⟩

theorem live_cons (m : Machine) (r : Nat) (roots : List Nat) :
    m.live (r :: roots) = userFrames m.mem r ++ m.live roots :=
  flatMap_cons

theorem mem_live : f ∈ m.live roots ↔ ∃ r ∈ roots, f ∈ userFrames m.mem r := mem_flatMap

theorem Inv.perm (inv : Inv K m roots) (same : roots.Perm roots') : Inv K m roots' := by
  have lives : (m.live roots).Perm (m.live roots') := same.flatMap_right _
  exact ⟨inv.wf, inv.region, inv.kernel, inv.boot, fun r h => inv.frame r (same.mem_iff.mpr h),
    lives.nodup_iff.mp inv.nodup, fun f h => inv.used f (lives.mem_iff.mpr h),
    fun r h => inv.plain r (same.mem_iff.mpr h), fun r h => inv.upper r (same.mem_iff.mpr h)⟩

theorem Inv.forget (inv : Inv K m (r :: roots)) : Inv K m roots := by
  have nodup := inv.nodup
  have used := inv.used
  exact ⟨inv.wf, inv.region, inv.kernel, inv.boot, fun r h => inv.frame r (.tail _ h),
    nodup.of_append_right, fun f h => used f (mem_append_right _ h),
    fun r h => inv.plain r (.tail _ h), fun r h => inv.upper r (.tail _ h)⟩

theorem Inv.below_ne_root (inv : Inv K m roots) (h : r ∈ roots) (h' : r' ∈ roots) :
    ∀ f ∈ frames mapped m.mem 3 r 256, f ≠ r' := by
  rintro f member rfl
  obtain ⟨before, after, rfl⟩ := append_of_mem h
  have nodup := inv.nodup
  simp only [live, flatMap_append, flatMap_cons] at nodup
  have here : f ∈ userFrames m.mem r := mem_append_left _ member
  rcases mem_append.mp h' with early | late
  · refine (nodup_append.mp nodup).2.2 f ?_ f (mem_append_left _ here) rfl
    exact mem_flatMap.mpr ⟨f, early, root_mem_userFrames _ _⟩
  · have nodup := nodup.of_append_right
    rcases mem_cons.mp late with rfl | late
    · exact (nodup_append.mp nodup.of_append_left).2.2 f member f (mem_singleton_self f) rfl
    · refine (nodup_append.mp nodup).2.2 f here f ?_ rfl
      exact mem_flatMap.mpr ⟨f, late, root_mem_userFrames _ _⟩

section

variable (inv : Inv K m roots) (wf : m'.fa.Wf) (sub : m'.fa.avail ⊆ m.fa.avail)

include inv wf sub

theorem Inv.transfer
    (region : Region m' K') (mono : ∀ a, K a ⊆ K' a) (only : ∀ a, ∀ f ∈ K' a, f ∈ K a ∨ f ∈ m.fa.avail)
    (kernelCr3 : m'.kernelCr3 = m.kernelCr3) (level4Phys : m'.level4Phys = m.level4Phys)
    (lower : ∀ r ∈ roots, ∀ i < 256, m'.mem r i = m.mem r i)
    (same : ∀ r ∈ roots, ∀ f ∈ frames mapped m.mem 3 r 256, m'.mem f = m.mem f)
    (upper : ∀ r ∈ roots, ∀ i, 256 ≤ i → i < 512 → Into K' 3 (m'.mem r i)) :
    Inv K' m' roots ∧ m'.live roots = m.live roots := by
  have lives : m'.live roots = m.live roots :=
    flatMap_congr fun r h => userFrames_congr (lower r h) (same r h)
  refine ⟨⟨wf, region, ?_, ?_, inv.frame, ?_, ?_, ?_, upper⟩, lives⟩
  · rw [kernelCr3]
    exact mono 3 inv.kernel
  · rw [level4Phys]
    exact mono 3 inv.boot
  · rw [lives]
    exact inv.nodup
  · intro f member
    rw [lives] at member
    obtain ⟨taken, outside⟩ := inv.used f member
    exact ⟨fun no => taken (sub no), fun a no => (only a f no).elim (outside a) taken⟩
  · intro r h i before
    rw [lower r h i before]
    refine (inv.plain r h i before).congr fun f member => same r h f ?_
    exact hang_sub_frames before f member

theorem Inv.keep (statics : m'.statics = m.statics) (same : ∀ f, f ∉ m.fa.avail → m'.mem f = m.mem f) :
    Inv K m' roots ∧ m'.live roots = m.live roots := by
  have used : ∀ r ∈ roots, ∀ f ∈ userFrames m.mem r, m'.mem f = m.mem f := fun r h f member =>
    same f (inv.used f (mem_live.mpr ⟨r, h, member⟩)).1
  have table : ∀ r ∈ roots, m'.mem r = m.mem r := fun r h => used r h r (root_mem_userFrames _ _)
  refine inv.transfer wf sub (inv.region.keep sub fun a f h => same f (inv.region.used a f h))
    (fun _ => subset_rfl) (fun _ _ => .inl) (statics_kernelCr3 statics) (statics_level4Phys statics)
    (fun r h i _ => by rw [table r h]) (fun r h f member => used r h f (mem_append_left _ member)) ?_
  intro r h i high low
  rw [table r h]
  exact inv.upper r h i high low

theorem Inv.add (statics : m'.statics = m.statics) (same : ∀ f, f ∉ m.fa.avail → m'.mem f = m.mem f)
    (frame : IsFrame r) (nodup : (userFrames m'.mem r).Nodup)
    (fresh : ∀ f ∈ userFrames m'.mem r, f ∈ m.fa.avail ∧ f ∉ m'.fa.avail)
    (plain : ∀ i < 256, All mapped Plain m'.mem 3 (m'.mem r i))
    (upper : ∀ i, 256 ≤ i → i < 512 → Into K 3 (m'.mem r i)) :
    Inv K m' (r :: roots) ∧ m'.live (r :: roots) = userFrames m'.mem r ++ m.live roots := by
  obtain ⟨kept, lives⟩ := inv.keep wf sub statics same
  refine ⟨⟨wf, kept.region, kept.kernel, kept.boot, ?_, ?_, ?_, ?_, ?_⟩, by rw [live_cons, lives]⟩
  · exact forall_mem_cons.mpr ⟨frame, inv.frame⟩
  · rw [live_cons, lives]
    refine nodup_append.mpr ⟨nodup, inv.nodup, ?_⟩
    rintro f new g old rfl
    exact (inv.used f old).1 (fresh f new).1
  · rw [live_cons]
    refine forall_mem_append.mpr ⟨fun f new => ?_, kept.used⟩
    exact ⟨(fresh f new).2, fun a no => inv.region.used a f no (fresh f new).1⟩
  · exact forall_mem_cons.mpr ⟨plain, kept.plain⟩
  · exact forall_mem_cons.mpr ⟨upper, kept.upper⟩

end

/-! ## Giving a frame back -/

/-- A frame that is in use but belongs to no space. -/
structure Held (K : Nat → Set Nat) (m : Machine) (roots : List Nat) (p : Nat) : Prop where
  frame : IsFrame p
  taken : p ∉ m.fa.avail
  kernel : ∀ a, p ∉ K a
  space : p ∉ m.live roots

theorem Inv.giveAll (inv : Inv K m roots) (m' : Machine) (nodup : fs.Nodup)
    (held : ∀ f ∈ fs, Held K m roots f) (mem : m'.mem = m.mem) (fa : m'.fa = m.fa.freeAll fs)
    (level4Phys : m'.level4Phys = m.level4Phys) (kernelCr3 : m'.kernelCr3 = m.kernelCr3) :
    Inv K m' roots ∧ m'.live roots = m.live roots := by
  have lives : m'.live roots = m.live roots := by rw [live, live, mem]
  obtain ⟨wf, only⟩ := inv.wf.freeAll nodup (fun f h => (held f h).frame) fun f h => (held f h).taken
  rw [← fa] at wf only
  refine ⟨⟨wf, ⟨?_, ?_, inv.region.level⟩, ?_, ?_, inv.frame, ?_, ?_, ?_, ?_⟩, lives⟩
  · rw [mem]
    exact inv.region.closed
  · intro a t member no
    rcases only t no with freed | avail
    · exact (held t freed).kernel a member
    · exact inv.region.used a t member avail
  · rw [kernelCr3]
    exact inv.kernel
  · rw [level4Phys]
    exact inv.boot
  · rw [lives]
    exact inv.nodup
  · intro f member
    rw [lives] at member
    obtain ⟨taken, outside⟩ := inv.used f member
    refine ⟨fun no => ?_, outside⟩
    rcases only f no with freed | avail
    · exact (held f freed).space member
    · exact taken avail
  · rw [mem]
    exact inv.plain
  · rw [mem]
    exact inv.upper

section

variable (inv : Inv K m (r :: roots))

include inv

theorem Inv.isFrame : ∀ f ∈ userFrames m.mem r, IsFrame f := by
  intro f member
  rcases mem_append.mp member with below | root
  · obtain ⟨i, _, here⟩ := mem_frames.mp below
    exact isFrame_of_hang f here
  · obtain rfl := mem_singleton.mp root
    exact inv.frame f (.head _)

theorem Inv.destroyed (gone : Destroyed m m' r) : Inv K m' roots ∧ m'.live roots = m.live roots := by
  have nodup := inv.nodup
  have used := inv.used
  refine inv.forget.giveAll m' nodup.of_append_left ?_ gone.mem gone.fa gone.level4Phys gone.kernelCr3
  intro f member
  obtain ⟨taken, outside⟩ := used f (mem_append_left _ member)
  exact ⟨inv.isFrame f member, taken, outside, fun no => (nodup_append.mp nodup).2.2 f member f no rfl⟩

/-! ## Mapping a page -/

theorem Inv.space : Space m r := by
  have nodup := inv.nodup
  exact ⟨inv.wf, nodup.of_append_left, fun f member => (inv.used f (mem_live.mpr ⟨r, .head _, member⟩)).1,
    inv.plain r (.head _)⟩

/-- A page mapped into the user half of a space becomes part of it, together with the
    tables created on the way. -/
theorem Inv.mapUser (held : Held K m (r :: roots) p) (good : PageFlags flags) (user : tableIndex 3 virt < 256)
    (walk : MapWalk virt p flags 3 r m ok m') :
    ∃ new, Grown m m' new ∧ Inv K m' (r :: roots) ∧
      (m'.live (r :: roots)).Perm ((new ++ if ok then [p] else []) ++ m.live (r :: roots)) := by
  have apart : p ∉ userFrames m.mem r := fun no =>
    held.space (mem_live.mpr ⟨r, .head _, no⟩)
  obtain ⟨new, into⟩ := inv.space.mapUser held.frame held.taken apart good user walk
  have grown := into.grown
  refine ⟨new, grown, ?_⟩
  have fresh : ∀ f ∈ new ++ (if ok then [p] else []),
      f ∉ m'.fa.avail ∧ (∀ a, f ∉ K a) ∧ f ∉ m.live (r :: roots) := by
    intro f member
    rcases mem_append.mp member with member | page
    · have was := (grown.fresh f member).1
      exact ⟨(grown.fresh f member).2, fun a no => inv.region.used a f no was,
        fun no => (inv.used f no).1 was⟩
    · split_ifs at page
      · cases mem_singleton.mp page
        exact ⟨grown.keeps_used held.taken, held.kernel, held.space⟩
      · exact absurd page not_mem_nil
  -- the trees of the other spaces are out of the reach of the walk
  have rest : ∀ r' ∈ roots, ∀ f ∈ userFrames m.mem r', m'.mem f = m.mem f := by
    intro r' h f member
    have there := mem_live.mpr ⟨r', h, member⟩
    refine into.keep f (inv.forget.used f there).1 fun no => ?_
    have nodup := inv.nodup
    exact (nodup_append.mp nodup).2.2 f no f there rfl
  have table : ∀ r' ∈ roots, m'.mem r' = m.mem r' := fun r' h => rest r' h r' (root_mem_userFrames _ _)
  have lives : m'.live roots = m.live roots := flatMap_congr fun r' h =>
    userFrames_congr (fun i _ => by rw [table r' h]) fun f member =>
      rest r' h f (mem_append_left _ member)
  have perm : (m'.live (r :: roots)).Perm
      ((new ++ if ok then [p] else []) ++ m.live (r :: roots)) := by
    rw [live_cons, live_cons, lives, ← append_assoc]
    exact into.tree.append_right _
  have region : Region m' K := by
    refine inv.region.keep grown.sub fun a f member => into.keep f (inv.region.used a f member) ?_
    intro no
    exact (inv.used f (mem_live.mpr ⟨r, .head _, no⟩)).2 a member
  refine ⟨⟨grown.wf, region, ?_, ?_, inv.frame, ?_, ?_, ?_, ?_⟩, perm⟩
  · rw [statics_kernelCr3 grown.statics]
    exact inv.kernel
  · rw [statics_level4Phys grown.statics]
    exact inv.boot
  · rw [live_cons, lives]
    refine nodup_append.mpr ⟨into.space.nodup, inv.forget.nodup, ?_⟩
    rintro f here g there rfl
    rcases mem_append.mp (into.tree.mem_iff.mp here) with early | old
    · exact (fresh f early).2.2 (by rw [live_cons]; exact mem_append_right _ there)
    · have nodup := inv.nodup
      exact (nodup_append.mp nodup).2.2 f old f there rfl
  · intro f member
    rcases mem_append.mp (perm.mem_iff.mp member) with early | late
    · exact ⟨(fresh f early).1, (fresh f early).2.1⟩
    · exact ⟨grown.keeps_used (inv.used f late).1, (inv.used f late).2⟩
  · refine forall_mem_cons.mpr ⟨into.space.plain, fun r' h i before => ?_⟩
    rw [table r' h]
    refine (inv.forget.plain r' h i before).congr fun f member => rest r' h f ?_
    exact hang_sub_userFrames before f member
  · refine forall_mem_cons.mpr ⟨fun i high low => ?_, fun r' h i high low => ?_⟩
    · rw [into.others i (by omega)]
      exact inv.upper r (.head _) i high low
    · rw [table r' h]
      exact inv.forget.upper r' h i high low

theorem Inv.mapKernel (kernel : 256 ≤ tableIndex 3 virt) (walk : MapWalk virt p flags 3 r m ok m') :
    ∃ K' new, Grown m m' new ∧ Inv K' m' (r :: roots) ∧
      m'.live (r :: roots) = m.live (r :: roots) ∧ ∀ a, ∀ f ∈ K' a, f ∈ K a ∨ f ∈ new := by
  have root := inv.used r (mem_live.mpr ⟨r, .head _, root_mem_userFrames _ _⟩)
  obtain ⟨K', new, walked⟩ := mapWalk_region walk inv.wf inv.region root.1
    (fun a no => absurd no (root.2 a))
    (inv.upper r (.head _) _ kernel (tableIndex_lt 3 virt))
  have grown := walked.grown
  have outside : ∀ f ∈ m.live (r :: roots), f ≠ r → m'.mem f = m.mem f := fun f member other =>
    walked.keep f (inv.used f member).1 other fun a _ => (inv.used f member).2 a
  have tables : ∀ r' ∈ r :: roots, r' ≠ r → m'.mem r' = m.mem r' := fun r' h other =>
    outside r' (mem_live.mpr ⟨r', h, root_mem_userFrames _ _⟩) other
  have moved := inv.transfer grown.wf grown.sub walked.region walked.mono
    (fun a f member => (walked.only a f member).imp_right fun h => (grown.fresh f h).1)
    (statics_kernelCr3 grown.statics) (statics_level4Phys grown.statics) ?_ ?_ ?_
  · exact ⟨K', new, grown, moved.1, moved.2, walked.only⟩
  · intro r' h i before
    by_cases here : r' = r
    · rw [here, walked.others i (by omega)]
    · rw [tables r' h here]
  · intro r' h f member
    refine outside f (mem_live.mpr ⟨r', h, mem_append_left _ member⟩) ?_
    exact inv.below_ne_root h (.head _) f member
  · intro r' h i high low
    by_cases here : r' = r
    · subst here
      by_cases word : i = tableIndex 3 virt
      · rw [word]
        exact walked.into
      · rw [walked.others i word]
        exact (inv.upper r' h i high low).mono walked.mono
    · rw [tables r' h here]
      exact (inv.upper r' h i high low).mono walked.mono

end

/-! ## A page of its own frame -/

/-- A page is mapped the way the loaders do it: a frame is allocated for it, and given
    back if the mapping fails. -/
def mapFresh (mapper : Mapper) (m : Machine) (cr3 virt : Nat) (writable executable : Bool) :
    Option Machine :=
  match m.allocFrame with
  | none => none
  | some (none, m) => some m
  | some (some frame, m) =>
    match mapUserPageRaw mapper m cr3 virt frame writable executable with
    | none => none
    | some (true, m) => some m
    | some (false, m) => (freePhys m.fa frame).map fun fa => { m with fa := fa }

variable {mapper : Mapper} {cr3 src root : Nat} {writable executable : Bool}

/-- What happens between the allocation of a page's frame and its return. -/
def MapStep (m : Machine) (root virt p : Nat) (ok : Bool) (m' : Machine) : Prop :=
  (ok = false ∧ m' = m) ∨ ∃ flags, PageFlags flags ∧ MapWalk virt p flags 3 root m ok m'

theorem mapStep_of_run (frame : IsFrame p)
    (run : mapUserPageRaw mapper m cr3 virt p writable executable = some (ok, m')) :
    MapStep m (pageBase cr3) virt p ok m' := by
  rcases mapUserPageRaw_cases run with same | ⟨flags, ⟨good, -⟩, _, walk⟩
  · exact .inl same
  · exact .inr ⟨flags, good, frame.pageBase ▸ walk⟩

theorem mapFresh_cases (wf : m.fa.Wf) (run : m.mapFresh mapper cr3 virt writable executable = some m') :
    m' = m ∨ ∃ p m₁ ok m₂, m.Allocated p m₁ ∧ MapStep m₁ (pageBase cr3) virt p ok m₂ ∧
      m' = if ok then m₂ else { m₂ with fa := m₂.fa.freeFrame p } := by
  unfold mapFresh at run
  split at run
  · cases run
  · next m₁ empty =>
    cases run
    exact .inl (allocFrame_none empty)
  · next p m₁ got =>
    have new := allocFrame_some wf got
    split at run
    · cases run
    · next m₂ mapped =>
      obtain rfl := Option.some.inj run
      exact .inr ⟨p, m₁, true, m₂, new, mapStep_of_run new.frame mapped, rfl⟩
    · next m₂ failed =>
      rw [freePhys_frame new.frame] at run
      cases run
      exact .inr ⟨p, m₁, false, m₂, new, mapStep_of_run new.frame failed, rfl⟩

theorem Inv.allocated (inv : Inv K m roots) (new : m.Allocated p m₁) :
    Inv K m₁ roots ∧ m₁.live roots = m.live roots ∧ Held K m₁ roots p := by
  obtain ⟨inv₁, lives⟩ := inv.keep new.wf (new.sub.trans Set.sdiff_subset) new.statics
    fun f _ => by rw [new.store]
  refine ⟨inv₁, lives, new.frame, fun no => (new.sub no).2 rfl,
    fun a no => inv.region.used a p no new.mem, fun no => ?_⟩
  rw [lives] at no
  exact (inv.used p no).1 new.mem

/-- A mapping keeps the ownership invariant; in the user half the space grows by the
    page and the new tables, and a page that could not be mapped is still held. -/
theorem Inv.mapStep (inv : Inv K m (r :: roots)) (held : Held K m (r :: roots) p)
    (mapped : MapStep m r virt p ok m') :
    ∃ K' new, Grown m m' new ∧ Inv K' m' (r :: roots) ∧ (ok = false → Held K' m' (r :: roots) p) ∧
      (virt < 2 ^ 47 → ∀ f, f ∈ m'.live (r :: roots) ↔
        f ∈ new ∨ (ok = true ∧ f = p) ∨ f ∈ m.live (r :: roots)) := by
  rcases mapped with ⟨rfl, rfl⟩ | ⟨flags, good, walk⟩
  · exact ⟨K, [], Grown.refl inv.wf, inv, fun _ => held, fun _ f => by simp⟩
  by_cases user : tableIndex 3 virt < 256
  · obtain ⟨new, grown, inv', perm⟩ := inv.mapUser held good user walk
    have member : ∀ f, f ∈ m'.live (r :: roots) ↔
        f ∈ new ∨ (ok = true ∧ f = p) ∨ f ∈ m.live (r :: roots) := by
      intro f
      rw [perm.mem_iff]
      cases ok <;> simp
    refine ⟨K, new, grown, inv', ?_, fun _ => member⟩
    rintro rfl
    refine ⟨held.frame, grown.keeps_used held.taken, held.kernel, fun no => ?_⟩
    rcases (member p).mp no with no | ⟨no, _⟩ | no
    · exact held.taken (grown.fresh p no).1
    · cases no
    · exact held.space no
  · obtain ⟨K', new, grown, inv', lives, only⟩ := inv.mapKernel (Nat.le_of_not_lt user) walk
    refine ⟨K', new, grown, inv', ?_, fun low => absurd (tableIndex_user low) user⟩
    intro _
    refine ⟨held.frame, grown.keeps_used held.taken, fun a no => ?_, lives ▸ held.space⟩
    exact (only a p no).elim (held.kernel a) fun no => held.taken (grown.fresh p no).1

theorem Inv.mapFresh (inv : Inv K m (pageBase cr3 :: roots))
    (run : m.mapFresh mapper cr3 virt writable executable = some m') :
    ∃ K', Inv K' m' (pageBase cr3 :: roots) := by
  rcases mapFresh_cases inv.wf run with rfl | ⟨p, m₁, ok, m₂, new, mapped, rfl⟩
  · exact ⟨K, inv⟩
  · obtain ⟨inv₁, _, held⟩ := inv.allocated new
    obtain ⟨K', _, _, inv₂, back, _⟩ := inv₁.mapStep held mapped
    refine ⟨K', ?_⟩
    cases ok with
    | true => exact inv₂
    | false =>
      exact (inv₂.giveAll { m₂ with fa := m₂.fa.freeFrame p } (nodup_singleton p)
        (fun f h => mem_singleton.mp h ▸ back rfl) rfl rfl rfl rfl).1

/-! ## Creation, cloning and destruction -/

theorem createAddressSpace_cases {result : Option Nat} (wf : m.fa.Wf)
    (run : m.createAddressSpace = some (result, m')) :
    (result = none ∧ m' = m) ∨ ∃ p m₁, m.Allocated p m₁ ∧ result = some (p ||| (m.cr3 &&& 0b11000)) ∧
      m' = m₁.setFrame p fun i => if i < 256 then 0 else m.mem m.level4Phys i := by
  obtain ⟨⟨frame, m₁⟩, got, same⟩ := Option.map_eq_some_iff.mp run
  cases frame with
  | none =>
    cases same
    exact .inl ⟨rfl, allocFrame_none got⟩
  | some p =>
    have new := allocFrame_some wf got
    cases same
    have cr3 : m₁.cr3 = m.cr3 := congrArg (fun s => s.1) new.statics
    refine .inr ⟨p, m₁, new, by rw [cr3], ?_⟩
    rw [new.store, statics_level4Phys new.statics]

theorem Inv.created (inv : Inv K m roots) (new : m.Allocated p m₁)
    (made : m' = m₁.setFrame p fun i => if i < 256 then 0 else m.mem m.level4Phys i) :
    Inv K m' (p :: roots) ∧ m'.live (p :: roots) = p :: m.live roots := by
  have root : ∀ i, m'.mem p i = if i < 256 then 0 else m.mem m.level4Phys i := by
    intro i
    rw [made, setFrame_self]
  have empty : userFrames m'.mem p = [p] := by
    rw [userFrames, frames_nil_of, nil_append]
    intro i user
    rw [root, if_pos user, hang_mapped_zero]
  have fa : m'.fa = m₁.fa := by rw [made]; rfl
  have wf : m'.fa.Wf := fa ▸ new.wf
  have added := inv.add wf (fa ▸ new.sub.trans Set.sdiff_subset) ?_ ?_ new.frame ?_ ?_ ?_ ?_
  · rwa [empty, singleton_append] at added
  · rw [← new.statics, made]
    rfl
  · intro f taken
    have other : f ≠ p := fun eq => taken (eq ▸ new.mem)
    rw [made, setFrame_frame other, new.store]
  · rw [empty]
    exact nodup_singleton p
  · rw [empty, fa]
    intro f member
    cases mem_singleton.mp member
    exact ⟨new.mem, fun no => (new.sub no).2 rfl⟩
  · intro i user
    rw [root, if_pos user]
    exact all_plain_zero _ _
  · intro i high low
    rw [root, if_neg (by omega)]
    exact inv.region.closed 3 _ inv.boot i low

def NoReadOnly (mem : Nat → Nat → Nat) (root : Nat) : Prop :=
  ∀ i < 256, All mapped AllWritable mem 3 (mem root i)

instance decidableNoReadOnly (mem : Nat → Nat → Nat) (root : Nat) : Decidable (NoReadOnly mem root) :=
  Nat.decidableBallLT 256 fun i _ => All mapped AllWritable mem 3 (mem root i)

theorem Inv.cloned (inv : Inv K m roots) (live : src ∈ roots)
    (writable : NoReadOnly m.mem src) (cloned : ClonedSpace m m' src root) : Inv K m' (root :: roots) := by
  have copies : ∀ i < 256, All mapped AllWritable m'.mem 3 (m'.mem root i) := by
    intro i user
    refine (cloned.copy i user).all (fun _ _ no => absurd rfl no) ?_ (writable i user)
    intro l p e frame present all leaf _
    rw [writable_or_low frame]
    exact all leaf present
  have own : frames owned m'.mem 3 root 256 ++ [root] = userFrames m'.mem root := by
    refine congrArg (· ++ [root]) (flatMap_congr fun i inside => ?_)
    exact hang_owned_eq (copies i (mem_range.mp inside))
  refine (inv.add cloned.wf cloned.sub cloned.statics cloned.keep cloned.frame (own ▸ cloned.nodup)
    (own ▸ cloned.fresh) ?_ ?_).1
  · intro i user
    refine (cloned.copy i user).all (fun _ => .inl rfl) ?_ (inv.plain src live i user)
    intro l p e frame present plain
    refine .inr ⟨by rwa [present_or_low frame], fun upper => ?_⟩
    rw [or_low_and frame e (by decide) (by decide)]
    rcases plain with rfl | ⟨_, small⟩
    · rfl
    · exact small upper
  · intro i high low
    rw [cloned.kernel i high]
    exact inv.region.closed 3 _ inv.kernel (i - 256) (by omega)

end Zenus.Mem.Machine
