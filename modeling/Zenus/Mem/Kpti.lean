import Zenus.Mem.Spaces

/-! # User views of an address space

A user view is a second PML4 for a space: it has the user half of the space and, in
its kernel half, the trampoline pages only.  The two PML4s share the tables below
them, so what is mapped into a table that both know is seen by both; what needs a
new table directly below the PML4 is not.
-/

namespace Zenus.Mem

open Lib.Word Lib.Radix Lib.Run List Option

def USER_HALF_ENTRIES : Nat := 256

/-- The linked ranges of the entry text and data.  They are empty on the host, and in
    the kernel image, which is in the upper half, otherwise. -/
structure Trampoline where
  textStart : Nat
  textEnd : Nat
  dataStart : Nat
  dataEnd : Nat
  text : textStart < textEnd → WORD - 2 ^ 47 ≤ textStart ∧ textEnd ≤ WORD
  data : dataStart < dataEnd → WORD - 2 ^ 47 ≤ dataStart ∧ dataEnd ≤ WORD

namespace Machine

/-! ## Building and destroying -/

/-- One of the two loops of `map_trampoline_into`: the pages of a range are mapped where
    the kernel has them. -/
def mapRange (mapper : Mapper) (cr3 start endAddr : Nat) (writable : Bool) (m : Machine) :
    Option (Bool × Machine) :=
  Lib.Loop.upTo (fun i m =>
    match m.virtToPhysRaw m.kernelCr3 (start + 4096 * i) with
    | none => some (false, m)
    | some phys => mapSupervisorPageRaw mapper m cr3 (start + 4096 * i) phys writable)
    ((endAddr - start + 4095) / 4096) m

def mapTrampolineInto (mapper : Mapper) (tr : Trampoline) (cr3 : Nat) (m : Machine) :
    Option (Bool × Machine) :=
  match mapRange mapper cr3 tr.textStart tr.textEnd false m with
  | some (true, m) => mapRange mapper cr3 tr.dataStart tr.dataEnd true m
  | other => other

def destroyUserView (m : Machine) (userViewCr3 : Nat) : Option Machine :=
  (freePhys m.fa (pageBase userViewCr3)).map fun fa => { m with fa := fa }

def buildUserView (mapper : Mapper) (tr : Trampoline) (m : Machine) (kernelViewCr3 : Nat) :
    Option (Option Nat × Machine) :=
  if m.hhdmOffset = 0 then some (none, m)
  else
    match m.allocFrame with
    | none => none
    | some (none, m) => some (none, m)
    | some (some frame, m) =>
      let m := m.setFrame frame fun i =>
        if i < USER_HALF_ENTRIES then m.mem (pageBase kernelViewCr3) i else 0
      let view := frame ||| (kernelViewCr3 &&& 0xFFF)
      match mapTrampolineInto mapper tr view m with
      | none => none
      | some (true, m) => some (some view, m)
      | some (false, m) => (destroyUserView m view).map fun m => (none, m)

/-! ## Two PML4s in step -/

def SameLink (e e' : Nat) : Prop :=
  (e &&& PRESENT = 0 ↔ e' &&& PRESENT = 0) ∧ e &&& HUGE_PAGE = e' &&& HUGE_PAGE ∧
    frameAddr e = frameAddr e'

/-- `q` is the PML4 of a view of the space `r`. -/
structure View (m : Machine) (r q : Nat) : Prop where
  space : Space m r
  held : q ∉ m.fa.avail
  apart : q ∉ userFrames m.mem r
  same : ∀ i < 256, SameLink (m.mem r i) (m.mem q i)

variable {m m' m₁ : Machine} {r q p virt flags : Nat} {ok writable : Bool} {mapper : Mapper}
variable {v l t k start endAddr : Nat} {K : Nat → Set Nat} {mem : Nat → Nat → Nat} {tr : Trampoline}

theorem virtWalk_absent
    (absent : mem t (tableIndex (l + 1) virt) &&& PRESENT = 0) : virtWalk mem virt (l + 1) t = none := by
  exact if_pos absent

theorem virtWalk_table (present : mem t (tableIndex (l + 1) virt) &&& PRESENT ≠ 0)
    (small : mem t (tableIndex (l + 1) virt) &&& HUGE_PAGE = 0) :
    virtWalk mem virt (l + 1) t = virtWalk mem virt l (frameAddr (mem t (tableIndex (l + 1) virt))) := by
  exact (if_neg present).trans (if_neg (not_not.mpr small))

theorem View.translate (view : View m (pageBase k) (pageBase v)) (user : virt < 2 ^ 47) :
    m.virtToPhysRaw v virt = m.virtToPhysRaw k virt := by
  have index := tableIndex_user user
  obtain ⟨present, huge, addr⟩ := view.same _ index
  unfold virtToPhysRaw
  by_cases absent : m.mem (pageBase k) (tableIndex 3 virt) &&& PRESENT = 0
  · rw [virtWalk_absent absent, virtWalk_absent (present.mp absent)]
  · have used : m.mem (pageBase k) (tableIndex 3 virt) ≠ 0 := fun no => absent (by rw [no]; rfl)
    have small := ((view.space.plain _ index).here.table used).2
    rw [virtWalk_table absent small, virtWalk_table (fun no => absent (present.mpr no)) (huge ▸ small), addr]

theorem mapWalk_word (walk : MapWalk virt p flags (l + 1) t m ok m') (frame : IsFrame p)
    (good : PageFlags flags) (wf : m.fa.Wf) (taken : p ∉ m.fa.avail)
    (own : Owned m (l + 1) t (tableIndex (l + 1) virt)) (used : m.mem t (tableIndex (l + 1) virt) ≠ 0) :
    m'.mem t (tableIndex (l + 1) virt) = m.mem t (tableIndex (l + 1) virt) ||| parentFlags flags := by
  cases walk with
  | exhausted unused _ | created unused _ _ => exact absurd unused used
  | huge _ big => exact absurd (own.plain.here.table used).2 big
  | followed _ _ rest =>
    have below := own.below used
    obtain ⟨same, after⟩ := below.setWord (tableIndex (l + 1) virt)
      (m.mem t (tableIndex (l + 1) virt) ||| parentFlags flags)
    obtain ⟨_, _, ext⟩ := mapWalk_extended rest frame good wf taken (after.owned (tableIndex_lt l virt))
    rw [ext.keep t own.target (Ne.symm below.table.2), setWord_self]
    intro no
    exact (after.used t (hang_sub_frames (tableIndex_lt l virt) t no)).2.2 rfl

theorem View.mapUser (view : View m r q) (frame : IsFrame p) (taken : p ∉ m.fa.avail)
    (apart : p ∉ userFrames m.mem r) (other : p ≠ q) (good : PageFlags flags)
    (user : tableIndex 3 virt < 256) (slot : m.mem r (tableIndex 3 virt) &&& PRESENT ≠ 0)
    (walk : MapWalk virt p flags 3 r m ok m') : View m' r q := by
  obtain ⟨new, into⟩ := view.space.mapUser frame taken apart good user walk
  have used : m.mem r (tableIndex 3 virt) ≠ 0 := fun no => slot (by rw [no]; rfl)
  have word := mapWalk_word walk frame good view.space.wf taken (view.space.owned user) used
  refine ⟨into.space, into.grown.keeps_used view.held, ?_, ?_⟩
  · intro no
    rcases mem_append.mp (into.tree.mem_iff.mp no) with early | old
    · rcases mem_append.mp early with early | page
      · exact view.held (into.grown.fresh q early).1
      · split_ifs at page
        · exact other (mem_singleton.mp page).symm
        · exact not_mem_nil page
    · exact view.apart old
  · intro i before
    obtain ⟨present, huge, addr⟩ := view.same i before
    rw [into.keep q view.held view.apart]
    by_cases here : i = tableIndex 3 virt
    · subst here
      rw [word]
      refine ⟨iff_of_false (and_or_ne_zero _ slot) fun no => slot (present.mpr no), ?_, ?_⟩
      · rw [huge_or_parentFlags, huge]
      · rw [frameAddr_or_parentFlags, addr]
    · rw [into.others i here]
      exact ⟨present, huge, addr⟩

theorem View.unmapUser (view : View m (pageBase k) q) (user : virt < 2 ^ 47)
    (run : m.unmapPageRaw k virt = some (ok, m')) : View m' (pageBase k) q := by
  rcases view.space.unmapUser user run with rfl | ⟨x, cut⟩
  · exact view
  · have member : x ∈ userFrames m.mem (pageBase k) := cut.tree.mem_iff.mpr (.head _)
    refine ⟨cut.space, ?_, ?_, ?_⟩
    · intro no
      rw [cut.fa] at no
      rcases (view.space.wf.freeFrame cut.frame.lt (view.space.used x member)).2 no with rfl | no
      · exact view.apart member
      · exact view.held no
    · exact fun no => view.apart (cut.tree.mem_iff.mpr (.tail _ no))
    · intro i before
      rw [cut.root, cut.keep q view.apart]
      exact view.same i before

/-! ## The trampoline -/

/-- A view whose kernel half leads into tables of its own. -/
structure Attached (m : Machine) (r q : Nat) (K : Nat → Set Nat) : Prop where
  view : View m r q
  region : Region m K
  apart : ∀ a, ∀ f ∈ K a, f ≠ q ∧ f ∉ userFrames m.mem r
  upper : ∀ i, 256 ≤ i → i < 512 → Into K 3 (m.mem q i)

theorem Attached.mapKernel (att : Attached m r q K)
    (kernel : 256 ≤ tableIndex 3 virt) (walk : MapWalk virt p flags 3 q m ok m') :
    ∃ K', Attached m' r q K' := by
  have view := att.view
  have wf := view.space.wf
  obtain ⟨K', new, walked⟩ := mapWalk_region walk wf att.region view.held
    (fun a no => absurd rfl (att.apart a q no).1) (att.upper _ kernel (tableIndex_lt 3 virt))
  have grown := walked.grown
  have same : ∀ f ∈ userFrames m.mem r, m'.mem f = m.mem f := by
    intro f member
    exact walked.keep f (view.space.used f member) (fun eq => view.apart (eq ▸ member))
      fun a _ no => (att.apart a f no).2 member
  obtain ⟨space, tree⟩ := view.space.keep grown.wf grown.sub same
  refine ⟨K', ⟨space, grown.keeps_used view.held, tree ▸ view.apart, ?_⟩, walked.region, ?_, ?_⟩
  · intro i user
    rw [same r (root_mem_userFrames _ _), walked.others i (by omega)]
    exact view.same i user
  · intro a f member
    rw [tree]
    rcases walked.only a f member with old | early
    · exact att.apart a f old
    · have was := (grown.fresh f early).1
      exact ⟨fun eq => view.held (eq ▸ was), fun no => view.space.used f no was⟩
  · intro i high low
    by_cases here : i = tableIndex 3 virt
    · rw [here]
      exact walked.into
    · rw [walked.others i here]
      exact (att.upper i high low).mono walked.mono

section Rule

variable {P Q : Machine → Prop} (weaken : ∀ s, Q s → P s)
variable (mapped : ∀ virt p flags s s', 256 ≤ tableIndex 3 virt →
  MapWalk virt p flags 3 (pageBase v) s true s' → P s → Q s')

include weaken mapped

/-- The pages of a range are in the kernel half; what mapping one of them brings about
    holds after a range that is not empty. -/
theorem mapRange_rule (high : start < endAddr → WORD - 2 ^ 47 ≤ start ∧ endAddr ≤ WORD) (before : P m)
    (run : mapRange mapper v start endAddr writable m = some (true, m')) :
    P m' ∧ (start < endAddr → Q m') := by
  have after := (Lib.Loop.upTo_outcome (P := fun i s => P s ∧ (0 < i → Q s)) (Q := fun _ => True) ?_
    ⟨before, fun no => absurd no (lt_irrefl 0)⟩ run).1 rfl
  · exact ⟨after.1, fun some => after.2 (by omega)⟩
  rintro i inside s s' ok ⟨holds, -⟩ stepped
  refine ⟨?_, fun _ => trivial⟩
  rintro rfl
  obtain ⟨low, top⟩ := high (by omega)
  split at stepped
  · cases stepped
  · rcases mapPageRaw_cases stepped with ⟨no, _⟩ | ⟨_, walk⟩
    · cases no
    · have new := mapped _ _ _ _ _ (tableIndex_kernel (by omega) (by omega)) walk holds
      exact ⟨weaken _ new, fun _ => new⟩

theorem mapTrampolineInto_rule {tr : Trampoline} (before : P m)
    (run : mapTrampolineInto mapper tr v m = some (true, m')) :
    P m' ∧ (tr.textStart < tr.textEnd ∨ tr.dataStart < tr.dataEnd → Q m') := by
  unfold mapTrampolineInto at run
  split at run
  · next m₁ text =>
    obtain ⟨between, first⟩ := mapRange_rule weaken mapped tr.text before text
    obtain ⟨after, second⟩ := mapRange_rule weaken mapped tr.data between run
    refine ⟨after, fun some => some.elim (fun some => ?_) second⟩
    exact (mapRange_rule (fun _ => id) (fun _ _ _ _ _ kernel walk => mapped _ _ _ _ _ kernel walk ∘ weaken _)
      tr.data (first some) run).1
  · next other => exact absurd run (other m')

end Rule

theorem Space.attached (space : Space m r) (new : m.Allocated q m₁)
    (made : m' = m₁.setFrame q fun i => if i < USER_HALF_ENTRIES then m.mem r i else 0) :
    Attached m' r q fun _ => ∅ := by
  have root : ∀ i, m'.mem q i = if i < 256 then m.mem r i else 0 := by
    intro i
    rw [made, setFrame_self]
    rfl
  have fa : m'.fa = m₁.fa := by rw [made]; rfl
  have same : ∀ f, f ∉ m.fa.avail → m'.mem f = m.mem f := by
    intro f taken
    have other : f ≠ q := fun eq => taken (eq ▸ new.mem)
    rw [made, setFrame_frame other, new.store]
  have wf : m'.fa.Wf := fa ▸ new.wf
  obtain ⟨space', tree⟩ := space.keep wf (fa ▸ new.sub.trans Set.sdiff_subset)
    fun f member => same f (space.used f member)
  refine ⟨⟨space', ?_, ?_, ?_⟩, ⟨?_, ?_, ?_⟩, ?_, ?_⟩
  · rw [fa]
    exact fun no => (new.sub no).2 rfl
  · rw [tree]
    exact fun no => space.used q no new.mem
  · intro i user
    rw [root, if_pos user, same r (space.used r (root_mem_userFrames _ _))]
    exact ⟨Iff.rfl, rfl, rfl⟩
  · exact fun a t no => absurd no (Set.notMem_empty t)
  · exact fun a t no => absurd no (Set.notMem_empty t)
  · exact fun a b t no => absurd no (Set.notMem_empty t)
  · exact fun a t no => absurd no (Set.notMem_empty t)
  · intro i high _
    rw [root, if_neg (by omega)]
    exact into_zero _ _

theorem buildUserView_some (wf : m.fa.Wf) (run : buildUserView mapper tr m k = some (some v, m')) :
    ∃ m₁, m.Allocated (pageBase v) m₁ ∧ mapTrampolineInto mapper tr v (m₁.setFrame (pageBase v) fun i =>
      if i < USER_HALF_ENTRIES then m.mem (pageBase k) i else 0) = some (true, m') := by
  unfold buildUserView at run
  split_ifs at run
  · cases run
  · split at run
    · cases run
    · cases run
    · next frame m₁ got =>
      have new := allocFrame_some wf got
      have base : pageBase (frame ||| (k &&& 0xFFF)) = frame := pageBase_or new.frame k (by decide)
      dsimp only at run
      rw [new.store] at run
      split at run
      · cases run
      · next m₃ done =>
        obtain ⟨view, rfl⟩ := Prod.mk.inj (some.inj run)
        cases view
        exact ⟨m₁, by rwa [base], by rwa [base]⟩
      · obtain ⟨_, _, same⟩ := map_eq_some_iff.mp run
        cases (Prod.mk.inj same).1

theorem buildUserView_view (space : Space m (pageBase k))
    (run : buildUserView mapper tr m k = some (some v, m')) : View m' (pageBase k) (pageBase v) := by
  obtain ⟨m₁, new, done⟩ := buildUserView_some space.wf run
  obtain ⟨⟨_, att⟩, -⟩ := mapTrampolineInto_rule (P := fun s => ∃ K, Attached s (pageBase k) (pageBase v) K)
    (fun _ => id) (fun _ _ _ _ _ kernel walk ⟨_, att⟩ => att.mapKernel kernel walk)
    ⟨_, space.attached new rfl⟩ done
  exact att.view

/-! ## Frames -/

theorem MapWalk.grows (walk : MapWalk virt p flags l t m ok m') (wf : m.fa.Wf) :
    m'.fa.avail ⊆ m.fa.avail ∧ m.served <:+ m'.served := by
  induction walk with
  | mapped _ | taken _ | huge _ _ => exact ⟨subset_rfl, suffix_rfl⟩
  | exhausted _ empty =>
    rw [allocFrame_none empty]
    exact ⟨subset_rfl, suffix_rfl⟩
  | created _ fresh _ ih =>
    have got := allocFrame_some wf fresh
    obtain ⟨sub, served⟩ := ih got.wf
    refine ⟨sub.trans (got.sub.trans Set.sdiff_subset), List.IsSuffix.trans ?_ served⟩
    exact got.served ▸ suffix_cons _ _
  | followed _ _ _ ih => exact ih wf

/-- The frames served between the first two machines are free in the third. -/
def Returned (m m' m'' : Machine) : Prop :=
  ∀ taken, m'.served = taken ++ m.served → ∀ f ∈ taken, f ∈ m''.fa.avail

/-- A frame other than `q` has been served on top of these and is not free. -/
def Lost (q : Nat) (served : List Nat) (s : Machine) : Prop :=
  ∃ f, f ∉ s.fa.avail ∧ f ≠ q ∧ f :: served <:+ s.served

/-- Only the PML4 of a view is given back, so with a page of trampoline the tables that
    mapping it took are never returned. -/
theorem userView_never_returned {tr : Trampoline} {k : Nat} {m'' : Machine} (space : Space m (pageBase k))
    (page : tr.textStart < tr.textEnd ∨ tr.dataStart < tr.dataEnd)
    (built : buildUserView mapper tr m k = some (some v, m')) (destroyed : m'.destroyUserView v = some m'') :
    ¬ Returned m m' m'' := by
  have view := buildUserView_view space built
  obtain ⟨m₁, new, done⟩ := buildUserView_some space.wf built
  obtain ⟨fa, freed, rfl⟩ := Option.map_eq_some_iff.mp destroyed
  rw [freePhys_frame new.frame, Option.some.injEq] at freed
  subst freed
  generalize made : m₁.setFrame (pageBase v) _ = m₂ at done
  have att := space.attached new made.symm
  have first : m₂.served = [pageBase v] ++ m.served := made ▸ new.served
  have zero : ∀ i, 256 ≤ i → m₂.mem (pageBase v) i = 0 := by
    intro i high
    rw [← made, setFrame_self]
    exact if_neg (Nat.not_lt.mpr high)
  have rule := mapTrampolineInto_rule
    (P := fun s => (∃ K, Attached s (pageBase k) (pageBase v) K) ∧ (s = m₂ ∨ Lost (pageBase v) m₂.served s))
    (Q := fun s => (∃ K, Attached s (pageBase k) (pageBase v) K) ∧ Lost (pageBase v) m₂.served s)
    (fun s ⟨att, lost⟩ => ⟨att, .inr lost⟩) ?_ ⟨⟨_, att⟩, .inl rfl⟩ done
  · intro returned
    obtain ⟨-, f, gone, other, taken, served⟩ := rule.2 (by omega)
    have back := returned (taken ++ [f, pageBase v]) (by simp [← served, first]) f (by simp)
    exact ((view.space.wf.freeFrame new.frame.lt view.held).2 back).elim other gone
  · rintro virt p flags s s' kernel walk ⟨⟨K, att⟩, before⟩
    have wf := att.view.space.wf
    refine ⟨att.mapKernel kernel walk, ?_⟩
    rcases before with rfl | ⟨f, gone, other, served⟩
    · -- the PML4 word of the page is unused, so that a table is created below it
      cases walk with
      | created _ fresh rest =>
        have got := allocFrame_some wf fresh
        obtain ⟨sub, served⟩ := rest.grows got.wf
        refine ⟨_, fun no => (got.sub (sub no)).2 rfl, fun same => att.view.held (same ▸ got.mem), ?_⟩
        exact got.served ▸ served
      | followed used _ _ => exact absurd (zero _ kernel) used
    · obtain ⟨sub, more⟩ := walk.grows wf
      exact ⟨f, fun no => gone (sub no), other, served.trans more⟩

end Machine

/-! ## Runs -/

namespace Kpti

open Machine

inductive Op where
  | mapUserPageRaw (virt phys : Nat) (writable executable : Bool)
  | unmapPageRaw (virt : Nat)
  deriving DecidableEq, Repr

/-- Mappings and unmappings made through the space `k`. -/
def step (mapper : Mapper) (k : Nat) (m : Machine) : Op → Option Machine
  | .mapUserPageRaw virt phys writable executable =>
    (m.mapUserPageRaw mapper k virt phys writable executable).map Prod.snd
  | .unmapPageRaw virt => (m.unmapPageRaw k virt).map Prod.snd

def Op.virt : Op → Nat
  | .mapUserPageRaw virt _ _ _ => virt
  | .unmapPageRaw virt => virt

/-- The PML4 word of a new mapping is populated, and the mapped frame is the caller's
    to map: in use, not part of the space, and not the PML4 of the view. -/
def Shared (k v : Nat) (m : Machine) : Op → Prop
  | .mapUserPageRaw virt phys _ _ =>
    m.mem (pageBase k) (tableIndex 3 virt) &&& PRESENT ≠ 0 ∧ pageBase phys ∉ m.fa.avail ∧
      pageBase phys ∉ userFrames m.mem (pageBase k) ∧ pageBase phys ≠ pageBase v
  | .unmapPageRaw _ => True

instance (k v : Nat) (m : Machine) : (op : Op) → Decidable (Shared k v m op)
  | .mapUserPageRaw .. => inferInstanceAs (Decidable (_ ∧ _))
  | .unmapPageRaw _ => isTrue trivial

theorem step_view {mapper : Mapper} {k v : Nat} (m : Machine) (op : Op) (m' : Machine)
    (view : View m (pageBase k) (pageBase v)) (shared : op.virt < 2 ^ 47 ∧ Shared k v m op)
    (stepped : step mapper k m op = some m') : View m' (pageBase k) (pageBase v) := by
  obtain ⟨user, shared⟩ := shared
  cases op with
  | mapUserPageRaw virt phys writable executable =>
    obtain ⟨⟨ok, m'⟩, run, rfl⟩ := map_eq_some_iff.mp stepped
    obtain ⟨slot, taken, apart, other⟩ := shared
    rcases mapUserPageRaw_cases run with ⟨_, rfl⟩ | ⟨flags, ⟨good, -⟩, frame, walk⟩
    · exact view
    · exact view.mapUser frame taken apart other good (tableIndex_user user) slot walk
  | unmapPageRaw virt =>
    obtain ⟨⟨ok, m'⟩, run, rfl⟩ := map_eq_some_iff.mp stepped
    exact view.unmapUser user run

/-- A user view stays in step with its space over every run of user-half mappings and
    unmappings made through the space, as long as no mapping needs a new table directly
    below the PML4. -/
theorem view_in_step (mapper : Mapper) (tr : Trampoline) (m₀ m : Machine) (k v : Nat)
    (space : Space m₀ (pageBase k)) (built : buildUserView mapper tr m₀ k = some (some v, m))
    {ops : List Op} {s : Machine}
    (shared : Along (step mapper k) (fun m op => op.virt < 2 ^ 47 ∧ Shared k v m op) ops m)
    (run : exec (step mapper k) ops m = some s) :
    ∀ a < 2 ^ 47, s.virtToPhysRaw v a = s.virtToPhysRaw k a := by
  have view := invariant_along (fun m => View m (pageBase k) (pageBase v)) step_view
    (buildUserView_view space built) shared run
  exact fun a user => view.translate user

def hostTrampoline : Trampoline where
  textStart := 0
  textEnd := 0
  dataStart := 0
  dataEnd := 0
  text no := absurd no (lt_irrefl 0)
  data no := absurd no (lt_irrefl 0)

theorem space_bootMachine : Space Spaces.bootMachine (pageBase 0x1000) :=
  space_of_low rfl (by decide +kernel) (by decide +kernel) (by decide +kernel)

/-- The space `0x1000` is empty when the view is built; the page mapped into it next
    needs a new table below the PML4, which the view does not get. -/
theorem mapping_missing_in_view :
    Space Spaces.bootMachine (pageBase 0x1000) ∧
    ∃ v m s, buildUserView offsetPageTable hostTrampoline Spaces.bootMachine 0x1000 = some (some v, m) ∧
      exec (step offsetPageTable 0x1000) [.mapUserPageRaw 0x400000 0x5000 true false] m =
        some s ∧
      s.virtToPhysRaw 0x1000 0x400000 = some 0x5000 ∧ s.virtToPhysRaw v 0x400000 = none := by
  refine ⟨space_bootMachine, ?_⟩
  obtain ⟨⟨_, m⟩, built, rfl, seen⟩ : ∃ out,
      buildUserView offsetPageTable hostTrampoline Spaces.bootMachine 0x1000 = some out ∧
      out.1 = some 0x100000 ∧
      ((exec (step offsetPageTable 0x1000) [.mapUserPageRaw 0x400000 0x5000 true false] out.2).any fun s =>
        decide (s.virtToPhysRaw 0x1000 0x400000 = some 0x5000 ∧ s.virtToPhysRaw 0x100000 0x400000 = none)) =
          true := exists_of_any (by decide +kernel)
  obtain ⟨s, reached, results⟩ := exists_of_any seen
  exact ⟨_, m, s, built, reached, results⟩

/-- A second page next to the one that is there, whose page is unmapped then. -/
def besides : List Op := [.mapUserPageRaw 0x400000 0x8000 true true, .unmapPageRaw 0]

theorem view_in_step_forkMachine :
    ∃ v m s, buildUserView offsetPageTable hostTrampoline (forkMachine 0 0x5007) 0x1000 =
        some (some v, m) ∧
      exec (step offsetPageTable 0x1000) besides m = some s ∧
      s.virtToPhysRaw 0x1000 0x400000 = some 0x8000 ∧ s.virtToPhysRaw 0x1000 0 = none ∧
      ∀ a < 2 ^ 47, s.virtToPhysRaw v a = s.virtToPhysRaw 0x1000 a := by
  have space : Space (forkMachine 0 0x5007) (pageBase 0x1000) :=
    space_of_low rfl (by decide +kernel) (by decide +kernel) (by decide +kernel)
  obtain ⟨⟨_, m⟩, built, rfl, shared, seen⟩ : ∃ out,
      buildUserView offsetPageTable hostTrampoline (forkMachine 0 0x5007) 0x1000 = some out ∧
      out.1 = some 0x100000 ∧
      Along (step offsetPageTable 0x1000) (fun m op => op.virt < 2 ^ 47 ∧ Shared 0x1000 0x100000 m op)
        besides out.2 ∧
      ((exec (step offsetPageTable 0x1000) besides out.2).any fun s => decide
        (s.virtToPhysRaw 0x1000 0x400000 = some 0x8000 ∧ s.virtToPhysRaw 0x1000 0 = none)) = true :=
    exists_of_any (by decide +kernel)
  obtain ⟨s, reached, second, first⟩ := exists_of_any seen
  exact ⟨_, m, s, built, reached, second, first,
    view_in_step offsetPageTable hostTrampoline (forkMachine 0 0x5007) m 0x1000 _ space built shared reached⟩

/-- One page of text and one of data. -/
def imageTrampoline : Trampoline where
  textStart := 0xFFFF804020100000
  textEnd := 0xFFFF804020101000
  dataStart := 0xFFFF804020101000
  dataEnd := 0xFFFF804020102000
  text := by decide
  data := by decide

/-- The kernel has its PML4 as every page of its half. -/
def imageMachine : Machine :=
  { Spaces.bootMachine with mem := fun f i => if f = 0x6000 ∧ 256 ≤ i then 0x6003 else 0 }

/-- Two pages of text and none of data. -/
def textTrampoline : Trampoline :=
  { imageTrampoline with textEnd := 0xFFFF804020102000, dataEnd := 0, text := by decide, data := by decide }

theorem userView_never_returned_text :
    ∃ v m s, buildUserView offsetPageTable textTrampoline imageMachine 0x1000 = some (some v, m) ∧
      m.destroyUserView v = some s ∧ ¬ Returned imageMachine m s := by
  have space : Space imageMachine (pageBase 0x1000) :=
    space_of_low rfl (by decide +kernel) (by decide +kernel) (by decide +kernel)
  obtain ⟨⟨_, m⟩, built, rfl, seen⟩ : ∃ out,
      buildUserView offsetPageTable textTrampoline imageMachine 0x1000 = some out ∧ out.1 = some 0x100000 ∧
      (out.2.destroyUserView 0x100000).isSome = true := exists_of_any (by decide +kernel)
  obtain ⟨s, destroyed⟩ := Option.isSome_iff_exists.mp seen
  exact ⟨_, m, s, built, destroyed, userView_never_returned space (.inl (by decide)) built destroyed⟩

/-- The three tables below the PML4 of the view stay in use. -/
theorem userView_keeps_tables :
    Space imageMachine (pageBase 0x1000) ∧
    ∃ v m s, buildUserView offsetPageTable imageTrampoline imageMachine 0x1000 = some (some v, m) ∧
      m.destroyUserView v = some s ∧ ¬ Returned imageMachine m s := by
  refine ⟨space_of_low rfl (by decide +kernel) (by decide +kernel) (by decide +kernel), ?_⟩
  obtain ⟨⟨_, m⟩, built, rfl, served, seen⟩ : ∃ out,
      buildUserView offsetPageTable imageTrampoline imageMachine 0x1000 = some out ∧ out.1 = some 0x100000 ∧
      out.2.served = [0x103000, 0x102000, 0x101000, 0x100000] ++ imageMachine.served ∧
      ((out.2.destroyUserView 0x100000).any fun s => decide (0x101000 ∉ s.fa.avail)) = true :=
    exists_of_any (by decide +kernel)
  obtain ⟨s, destroyed, gone⟩ := exists_of_any seen
  exact ⟨_, m, s, built, destroyed, fun returned => gone (returned _ served _ (by simp))⟩

end Kpti

end Zenus.Mem
