import Zenus.Mem.PageClone

/-! # Mapping a page

What `map_to` does to the tree it is called on: the tables it creates come from the
allocator, the tree grows by exactly those tables and the page, and nothing outside
the path is written.  In the kernel half, which all spaces share and which no tree
of a space contains, the same walk stays inside a region that is closed under
following table words.
-/

namespace Zenus.Mem

open Lib.Radix List Nat

/-! ## Words of user tables -/

/-- The words of a user tree: unused or present, and never a huge page. -/
def Plain (l e : Nat) : Prop := e = 0 ∨ (e &&& PRESENT ≠ 0 ∧ (0 < l → e &&& HUGE_PAGE = 0))

instance (l e : Nat) : Decidable (Plain l e) := inferInstanceAs (Decidable (_ ∨ _))

theorem Plain.table {l e : Nat} (plain : Plain (l + 1) e) (used : e ≠ 0) :
    e &&& PRESENT ≠ 0 ∧ e &&& HUGE_PAGE = 0 := by
  rcases plain with no | ⟨present, small⟩
  · exact absurd no used
  · exact ⟨present, small (succ_pos l)⟩

def PageFlags (flags : Nat) : Prop :=
  flags &&& 0x000FFFFFFFFFF000 = 0 ∧ flags &&& PRESENT ≠ 0

theorem all_plain_zero (mem : Nat → Nat → Nat) (l : Nat) : All mapped Plain mem l 0 := by
  cases l with
  | zero => exact .inl rfl
  | succ l => exact ⟨.inl rfl, fun c no => by cases no⟩

theorem hang_mapped_zero (mem : Nat → Nat → Nat) (l : Nat) : hang mapped mem l 0 = [] := by
  cases l with
  | zero => rfl
  | succ l => exact hang_none rfl

theorem and_or_ne_zero {a mask : Nat} (b : Nat) (nonzero : a &&& mask ≠ 0) : (a ||| b) &&& mask ≠ 0 := by
  rw [and_or_distrib_right]
  intro none
  exact nonzero (or_eq_zero_iff.mp none).1

namespace Machine

theorem parentFlags_and {flags mask : Nat} (high : (PRESENT ||| WRITABLE ||| USER_ACCESSIBLE) &&& mask = 0) :
    parentFlags flags &&& mask = 0 := by
  rw [parentFlags, Nat.and_assoc, high, Nat.and_zero]

theorem parentFlags_present {flags : Nat} (present : flags &&& PRESENT ≠ 0) :
    parentFlags flags &&& PRESENT ≠ 0 := by
  rw [parentFlags, Nat.and_assoc,
    show (PRESENT ||| WRITABLE ||| USER_ACCESSIBLE) &&& PRESENT = PRESENT by decide]
  exact present

theorem frameAddr_or_parentFlags (e flags : Nat) : frameAddr (e ||| parentFlags flags) = frameAddr e := by
  rw [frameAddr, and_or_distrib_right, parentFlags_and (by decide), or_zero]
  rfl

theorem huge_or_parentFlags (e flags : Nat) : (e ||| parentFlags flags) &&& HUGE_PAGE = e &&& HUGE_PAGE := by
  rw [and_or_distrib_right, parentFlags_and (by decide), or_zero]

theorem tableOf_link {q flags : Nat} (frame : IsFrame q) (ok : PageFlags flags) :
    tableOf (q ||| parentFlags flags) = some q := by
  have present : (q ||| parentFlags flags) &&& PRESENT ≠ 0 := by
    rw [Nat.or_comm]
    exact and_or_ne_zero q (parentFlags_present ok.2)
  rw [tableOf_some present, frameAddr_or_parentFlags]
  exact congrArg some frame

theorem plain_link {q flags l : Nat} (frame : IsFrame q) (ok : PageFlags flags) :
    Plain l (q ||| parentFlags flags) := by
  refine .inr ⟨?_, fun _ => ?_⟩
  · rw [Nat.or_comm]
    exact and_or_ne_zero q (parentFlags_present ok.2)
  · rw [huge_or_parentFlags, frame.and, show 0x000FFFFFFFFFF000 &&& HUGE_PAGE = 0 by decide, Nat.and_zero]

theorem present_page (p : Nat) {flags : Nat} (ok : PageFlags flags) : (p ||| flags) &&& PRESENT ≠ 0 := by
  rw [Nat.or_comm]
  exact and_or_ne_zero p ok.2

theorem tableOf_page {p flags : Nat} (frame : IsFrame p) (ok : PageFlags flags) :
    tableOf (p ||| flags) = some p := by
  rw [tableOf_some (present_page p ok), frameAddr, and_or_distrib_right, ok.1, or_zero]
  exact congrArg some frame

/-! ## Taking several frames -/

/-- The allocator of `m'` is that of `m` after the frames `new` were taken. -/
structure Grown (m m' : Machine) (new : List Nat) : Prop where
  wf : m'.fa.Wf
  sub : m'.fa.avail ⊆ m.fa.avail
  statics : m'.statics = m.statics
  nodup : new.Nodup
  fresh : ∀ f ∈ new, f ∈ m.fa.avail ∧ f ∉ m'.fa.avail
  served : ∀ f ∈ m'.served, f ∈ new ∨ f ∈ m.served
  stack : ∀ f ∈ m.fa.freeStack, f ∈ m'.fa.freeStack ∨ f ∈ new
  shorter : m'.fa.freeStack.length ≤ m.fa.freeStack.length

variable {m m' m'' m₁ : Machine} {virt p q flags l t : Nat} {ok writable executable : Bool}
  {new new' a b : List Nat}
variable {K : Nat → Set Nat} {i j f c k cr3 phys e w : Nat} {K' : Nat → Set Nat} {mapper : Mapper}

theorem Grown.refl (wf : m.fa.Wf) : Grown m m [] :=
  ⟨wf, subset_rfl, rfl, nodup_nil, by simp, fun _ => Or.inr, fun _ => Or.inl, le_rfl⟩

theorem Grown.setFrame (grown : Grown m m' new) (f : Nat) (words : Nat → Nat) :
    Grown m (m'.setFrame f words) new :=
  ⟨grown.wf, grown.sub, grown.statics, grown.nodup, grown.fresh, grown.served, grown.stack, grown.shorter⟩

theorem Grown.setWord (grown : Grown m m' new) (f i w : Nat) : Grown m (m'.setWord f i w) new :=
  grown.setFrame f _

theorem Grown.keeps_used (grown : Grown m m' new) (used : f ∉ m.fa.avail) :
    f ∉ m'.fa.avail :=
  fun no => used (grown.sub no)

theorem Grown.trans (first : Grown m m' new) (second : Grown m' m'' new') : Grown m m'' (new' ++ new) := by
  refine ⟨second.wf, second.sub.trans first.sub, second.statics.trans first.statics, ?_, ?_, ?_, ?_,
    second.shorter.trans first.shorter⟩
  · refine nodup_append.mpr ⟨second.nodup, first.nodup, ?_⟩
    rintro f late g early rfl
    exact (first.fresh f early).2 (second.fresh f late).1
  · intro f member
    rcases mem_append.mp member with late | early
    · exact ⟨first.sub (second.fresh f late).1, (second.fresh f late).2⟩
    · exact ⟨(first.fresh f early).1, second.keeps_used (first.fresh f early).2⟩
  · intro f served
    rcases second.served f served with late | served
    · exact .inl (mem_append_left _ late)
    · exact (first.served f served).imp_left (mem_append_right _)
  · intro f stack
    rcases first.stack f stack with stack | early
    · exact (second.stack f stack).imp_right (mem_append_left _)
    · exact .inr (mem_append_right _ early)

theorem Allocated.grown (new : m.Allocated p m') : Grown m m' [p] := by
  refine ⟨new.wf, new.sub.trans Set.sdiff_subset, new.statics, nodup_singleton p, ?_, ?_, ?_, ?_⟩
  · intro f here
    cases mem_singleton.mp here
    exact ⟨new.mem, fun no => (new.sub no).2 rfl⟩
  · rw [new.served]
    simp
  · intro f stack
    rcases new.stack with taken | ⟨empty, _⟩
    · rw [taken] at stack
      exact (mem_cons.mp stack).symm.imp_right mem_singleton.mpr
    · rw [empty] at stack
      exact absurd stack not_mem_nil
  · rcases new.stack with taken | ⟨_, empty⟩
    · rw [taken]
      exact le_succ _
    · rw [empty]
      exact zero_le _

/-! ## The walk in a tree -/

/-- The tree below a word belongs to one place: its frames are distinct, in use, and
    do not include the table the word is in. -/
structure Owned (m : Machine) (l t i : Nat) : Prop where
  target : t ∉ m.fa.avail
  plain : All mapped Plain m.mem l (m.mem t i)
  nodup : (hang mapped m.mem l (m.mem t i)).Nodup
  used : ∀ f ∈ hang mapped m.mem l (m.mem t i), f ∉ m.fa.avail ∧ f ≠ t

/-- The tree below a word has grown by the frames `new`. -/
structure Extended (m m' : Machine) (l t i : Nat) (new : List Nat) : Prop where
  keep : ∀ f, f ∉ m.fa.avail → f ≠ t → f ∉ hang mapped m.mem l (m.mem t i) → m'.mem f = m.mem f
  others : ∀ j, j ≠ i → m'.mem t j = m.mem t j
  plain : All mapped Plain m'.mem l (m'.mem t i)
  tree : (hang mapped m'.mem l (m'.mem t i)).Perm (new ++ hang mapped m.mem l (m.mem t i))

theorem Owned.of_zero (target : t ∉ m.fa.avail) (zero : m.mem t i = 0) : Owned m l t i := by
  refine ⟨target, ?_, ?_, ?_⟩ <;> rw [zero]
  · exact all_plain_zero _ _
  · rw [hang_mapped_zero]
    exact nodup_nil
  · rw [hang_mapped_zero]
    simp

theorem Extended.inTable (ext : Extended m m' l c j new) (inside : j < k)
    (nodup : (frames mapped m.mem l c k).Nodup)
    (used : ∀ f ∈ frames mapped m.mem l c k, f ∉ m.fa.avail ∧ f ≠ c)
    (plain : ∀ i < k, All mapped Plain m.mem l (m.mem c i)) :
    (frames mapped m'.mem l c k).Perm (new ++ frames mapped m.mem l c k) ∧
      ∀ i < k, All mapped Plain m'.mem l (m'.mem c i) := by
  have same : ∀ i < k, i ≠ j → ∀ f ∈ hang mapped m.mem l (m.mem c i), m'.mem f = m.mem f := by
    intro i before ne f member
    obtain ⟨taken, other⟩ := used f (hang_sub_frames before f member)
    exact ext.keep f taken other (frames_apart nodup before inside ne f member)
  refine ⟨frames_graft new inside (fun i _ ne => ext.others i ne) same ext.tree, ?_⟩
  intro i before
  by_cases here : i = j
  · rw [here]
    exact ext.plain
  · rw [ext.others i here]
    exact (plain i before).congr (same i before here)

theorem Extended.perm (ext : Extended m m' l t i a) (same : a.Perm b) :
    Extended m m' l t i b :=
  ⟨ext.keep, ext.others, ext.plain, ext.tree.trans (same.append_right _)⟩

/-- The machine in which a new table `q` is linked at `i` of `t`. -/
def link (m : Machine) (t i q flags : Nat) : Machine :=
  (m.setWord t i (q ||| parentFlags flags)).zeroFrame q

theorem Allocated.link_mem (new : m.Allocated q m') (used : f ∉ m.fa.avail)
    (other : f ≠ t) : (m'.link t i q flags).mem f = m.mem f := by
  have notNew : f ≠ q := fun eq => used (eq ▸ new.mem)
  rw [link, zeroFrame, setFrame_frame notNew, setWord_frame other, new.store]

theorem Allocated.link_table (i flags : Nat) (new : m.Allocated q m') (used : t ∉ m.fa.avail) :
    (m'.link t i q flags).mem t i = q ||| parentFlags flags ∧
      ∀ j, j ≠ i → (m'.link t i q flags).mem t j = m.mem t j := by
  have notNew : t ≠ q := fun eq => used (eq ▸ new.mem)
  rw [link, zeroFrame, setFrame_frame notNew]
  refine ⟨setWord_self _ _ _ _, fun j other => ?_⟩
  rw [setWord_index other, new.store]

theorem link_zero (m : Machine) (t i q flags j : Nat) : (m.link t i q flags).mem q j = 0 := by
  rw [link, zeroFrame, setFrame_self]

theorem Extended.created (ext : Extended (m₁.link t i q flags) m' l q j new)
    (inside : j < 512) (got : m.Allocated q m₁) (good : PageFlags flags) (unused : m.mem t i = 0)
    (target : t ∉ m.fa.avail) : Extended m m' (l + 1) t i (new ++ [q]) := by
  have empty : frames mapped (m₁.link t i q flags).mem l q 512 = [] :=
    frames_nil_of fun k _ => by rw [link_zero, hang_mapped_zero]
  have none : hang mapped (m₁.link t i q flags).mem l ((m₁.link t i q flags).mem q j) = [] := by
    rw [link_zero, hang_mapped_zero]
  have outside : ∀ f, f ∉ m.fa.avail → m'.mem f = (m₁.link t i q flags).mem f := by
    intro f used
    have other : f ≠ q := fun eq => used (eq ▸ got.mem)
    exact ext.keep f (fun no => used (got.sub no).1) other (by simp [none])
  obtain ⟨word, words⟩ := got.link_table i flags target
  rw [← outside t target] at word words
  obtain ⟨tree, plain⟩ := ext.inTable inside (by simp [empty]) (by simp [empty])
    fun k _ => by rw [link_zero]; exact all_plain_zero _ _
  refine ⟨?_, words, ?_, ?_⟩
  · intro f used other _
    rw [outside f used, got.link_mem used other]
  · rw [word]
    refine ⟨plain_link got.frame good, ?_⟩
    intro c table k before
    cases (tableOf_link got.frame good).symm.trans table
    exact plain k before
  · rw [word, unused, hang_mapped_zero, hang_some (tableOf_link got.frame good), append_nil]
    rw [empty, append_nil] at tree
    exact tree.append_right _

/-- The table `c` that a word of `t` points to. -/
structure Below (m : Machine) (l t c : Nat) : Prop where
  nodup : (frames mapped m.mem l c 512).Nodup
  used : ∀ f ∈ frames mapped m.mem l c 512, f ∉ m.fa.avail ∧ f ≠ c ∧ f ≠ t
  table : c ∉ m.fa.avail ∧ c ≠ t
  plain : ∀ k < 512, All mapped Plain m.mem l (m.mem c k)

theorem Owned.below (own : Owned m (l + 1) t i) (used : m.mem t i ≠ 0) :
    Below m l t (frameAddr (m.mem t i)) := by
  have present := (own.plain.here.table used).1
  have tree : hang mapped m.mem (l + 1) (m.mem t i) =
      frames mapped m.mem l (frameAddr (m.mem t i)) 512 ++ [frameAddr (m.mem t i)] :=
    hang_some (tableOf_some present)
  have nodup := own.nodup
  have inUse := own.used
  rw [tree] at nodup inUse
  refine ⟨nodup.of_append_left, ?_, inUse _ (by simp), own.plain.2 _ (tableOf_some present)⟩
  intro f member
  obtain ⟨taken, other⟩ := inUse f (mem_append_left _ member)
  refine ⟨taken, ?_, other⟩
  rintro rfl
  exact (nodup_append.mp nodup).2.2 _ member _ (mem_singleton_self _) rfl

theorem Below.setWord (below : Below m l t c) (i w : Nat) :
    frames mapped (m.setWord t i w).mem l c 512 = frames mapped m.mem l c 512 ∧
      Below (m.setWord t i w) l t c := by
  have words : ∀ k, (m.setWord t i w).mem c k = m.mem c k := fun k => by
    rw [setWord_frame below.table.2]
  have same : ∀ f ∈ frames mapped m.mem l c 512, (m.setWord t i w).mem f = m.mem f :=
    fun f member => setWord_frame (below.used f member).2.2
  have tree := frames_congr (fun k _ => words k) same
  refine ⟨tree, by rw [tree]; exact below.nodup, by rw [tree]; exact below.used, below.table, ?_⟩
  intro k before
  rw [words]
  exact (below.plain k before).congr fun f member => same f (hang_sub_frames before f member)

theorem Below.owned (below : Below m l t c) (inside : j < 512) : Owned m l c j := by
  refine ⟨below.table.1, below.plain j inside, ?_, fun f member => ?_⟩
  · have nodup := below.nodup
    rw [(frames_perm inside).nodup_iff] at nodup
    exact nodup.of_append_left
  · obtain ⟨taken, other, _⟩ := below.used f (hang_sub_frames inside f member)
    exact ⟨taken, other⟩

theorem Extended.followed
    (ext : Extended (m.setWord t i (m.mem t i ||| parentFlags flags)) m' l (frameAddr (m.mem t i)) j new)
    (inside : j < 512) (own : Owned m (l + 1) t i) (used : m.mem t i ≠ 0) :
    Extended m m' (l + 1) t i new := by
  have below := own.below used
  obtain ⟨same, after⟩ := below.setWord i (m.mem t i ||| parentFlags flags)
  obtain ⟨present, small⟩ := own.plain.here.table used
  have table : tableOf (m.mem t i ||| parentFlags flags) = some (frameAddr (m.mem t i)) := by
    rw [tableOf_some (and_or_ne_zero _ present), frameAddr_or_parentFlags]
  have old : hang mapped m.mem (l + 1) (m.mem t i) =
      frames mapped m.mem l (frameAddr (m.mem t i)) 512 ++ [frameAddr (m.mem t i)] :=
    hang_some (tableOf_some present)
  have inner : ∀ f ∈ hang mapped (m.setWord t i (m.mem t i ||| parentFlags flags)).mem l
      ((m.setWord t i (m.mem t i ||| parentFlags flags)).mem (frameAddr (m.mem t i)) j),
      f ∈ frames mapped m.mem l (frameAddr (m.mem t i)) 512 := fun f member =>
    same ▸ hang_sub_frames inside f member
  obtain ⟨tree, plain⟩ := ext.inTable inside after.nodup
    (fun f member => ⟨(after.used f member).1, (after.used f member).2.1⟩) after.plain
  have kept : m'.mem t = (m.setWord t i (m.mem t i ||| parentFlags flags)).mem t :=
    ext.keep t own.target (Ne.symm below.table.2) fun no => (below.used t (inner t no)).2.2 rfl
  refine ⟨?_, ?_, ?_, ?_⟩
  · intro f taken other outside
    rw [old] at outside
    rw [ext.keep f taken (fun eq => outside (by simp [eq]))
      (fun no => outside (mem_append_left _ (inner f no))), setWord_frame other]
  · intro k other
    rw [kept, setWord_index other]
  · rw [kept, setWord_self]
    refine ⟨.inr ⟨and_or_ne_zero _ present, fun _ => by rw [huge_or_parentFlags, small]⟩, ?_⟩
    intro c points k before
    cases table.symm.trans points
    exact plain k before
  · rw [kept, setWord_self, hang_some table, old, ← append_assoc]
    rw [same] at tree
    exact tree.append_right _

/-- What the walk does below a word: the tree grows by the tables it creates, and by
    the page if the walk succeeds. -/
theorem mapWalk_extended (walk : MapWalk virt p flags l t m ok m') (frame : IsFrame p)
    (good : PageFlags flags) (wf : m.fa.Wf) (held : p ∉ m.fa.avail) (own : Owned m l t (tableIndex l virt)) :
    ∃ new, Grown m m' new ∧ Extended m m' l t (tableIndex l virt) (new ++ if ok then [p] else []) := by
  induction walk with
  | @mapped t m unused =>
    refine ⟨[], (Grown.refl wf).setWord _ _ _, ?_, ?_, ?_, ?_⟩
    · exact fun f _ other _ => setWord_frame other
    · exact fun j other => setWord_index other
    · rw [setWord_self]
      exact .inr ⟨present_page p good, fun no => absurd no (lt_irrefl 0)⟩
    · rw [setWord_self, unused, hang_mapped_zero, hang_zero,
        show mapped.page (p ||| flags) = some p from tableOf_page frame good]
      exact List.Perm.refl _
  | @taken t m used =>
    exact ⟨[], Grown.refl wf, fun _ _ _ _ => rfl, fun _ _ => rfl, own.plain, List.Perm.refl _⟩
  | @exhausted l t m m₁ unused empty =>
    cases allocFrame_none empty
    exact ⟨[], Grown.refl wf, fun _ _ _ _ => rfl, fun _ _ => rfl, own.plain, List.Perm.refl _⟩
  | @created l t q m m₁ m' ok unused fresh rest ih =>
    have got := allocFrame_some wf fresh
    have linked : Grown m (m₁.link t (tableIndex (l + 1) virt) q flags) [q] :=
      (got.grown.setWord _ _ _).setFrame _ _
    obtain ⟨new, grown, ext⟩ := ih linked.wf (linked.keeps_used held)
      (Owned.of_zero (linked.fresh q (mem_singleton_self q)).2 (link_zero _ _ _ _ _ _))
    refine ⟨new ++ [q], linked.trans grown, ?_⟩
    refine (ext.created (tableIndex_lt l virt) got good unused own.target).perm ?_
    rw [append_assoc, append_assoc]
    exact perm_append_comm.append_left new
  | @huge l t m used big =>
    exact absurd (own.plain.here.table used).2 big
  | @followed l t m m' ok used small rest ih =>
    have touched : Grown m (m.setWord t (tableIndex (l + 1) virt)
        (m.mem t (tableIndex (l + 1) virt) ||| parentFlags flags)) [] := (Grown.refl wf).setWord _ _ _
    obtain ⟨new, grown, ext⟩ := ih wf held
      (((own.below used).setWord _ _).2.owned (tableIndex_lt l virt))
    refine ⟨new, ?_, ext.followed (tableIndex_lt l virt) own used⟩
    simpa using touched.trans grown

/-! ## An implementation -/

def mapWalk (virt frame flags : Nat) : Nat → Nat → Machine → Option (Bool × Machine)
  | 0, table, m =>
    if m.mem table (tableIndex 0 virt) = 0 then
      some (true, m.setWord table (tableIndex 0 virt) (frame ||| flags))
    else some (false, m)
  | level + 1, table, m =>
    let entry := m.mem table (tableIndex (level + 1) virt)
    if entry = 0 then
      match m.allocFrame with
      | none => none
      | some (none, m) => some (false, m)
      | some (some new, m) =>
        mapWalk virt frame flags level new (m.link table (tableIndex (level + 1) virt) new flags)
    else
      let m := m.setWord table (tableIndex (level + 1) virt) (entry ||| parentFlags flags)
      if entry &&& HUGE_PAGE ≠ 0 then some (false, m)
      else mapWalk virt frame flags level (frameAddr entry) m

theorem mapWalk_documented (run : mapWalk virt p flags l t m = some (ok, m')) :
    MapWalk virt p flags l t m ok m' := by
  induction l generalizing t m with
  | zero =>
    unfold mapWalk at run
    split_ifs at run with unused
    · cases run
      exact .mapped unused
    · cases run
      exact .taken unused
  | succ l ih =>
    unfold mapWalk at run
    dsimp only at run
    split_ifs at run with unused big
    · split at run
      · cases run
      · next empty =>
        cases run
        exact .exhausted unused empty
      · next fresh => exact .created unused fresh (ih run)
    · cases run
      exact .huge unused big
    · exact .followed unused (by simpa using big) (ih run)

def offsetPageTable : Mapper where
  mapTo m root virt frame flags := mapWalk virt frame flags 3 root m
  documented _ _ _ _ _ _ _ run := mapWalk_documented run

theorem mapPageRaw_cases (run : mapPageRaw mapper m cr3 virt phys flags = some (ok, m')) :
    (ok = false ∧ m' = m) ∨
      (IsFrame (pageBase phys) ∧ MapWalk virt (pageBase phys) flags 3 (pageBase cr3) m ok m') := by
  unfold mapPageRaw at run
  split_ifs at run with canonical
  · obtain ⟨phys', valid, walk⟩ := Option.bind_eq_some_iff.mp run
    unfold PhysAddr.new at valid
    split_ifs at valid with small
    cases valid
    exact .inr ⟨isFrame_pageBase small, mapper.documented _ _ _ _ _ _ _ walk⟩
  · cases run
    exact .inl ⟨rfl, rfl⟩

/-- Flags of a user page with the rights that were asked for. -/
structure UserFlags (flags : Nat) (writable executable : Bool) : Prop where
  good : PageFlags flags
  user : (flags &&& USER_ACCESSIBLE != 0) = true
  writes : (flags &&& WRITABLE != 0) = writable
  executes : (flags &&& NO_EXECUTE == 0) = executable

theorem mapUserPageRaw_cases
    (run : mapUserPageRaw mapper m cr3 virt phys writable executable = some (ok, m')) :
    (ok = false ∧ m' = m) ∨ ∃ flags, UserFlags flags writable executable ∧ IsFrame (pageBase phys) ∧
      MapWalk virt (pageBase phys) flags 3 (pageBase cr3) m ok m' := by
  refine (mapPageRaw_cases run).imp_right fun ⟨frame, walk⟩ => ⟨_, ⟨?_, ?_, ?_, ?_⟩, frame, walk⟩
  · unfold PageFlags
    cases writable <;> cases executable <;> decide
  all_goals cases writable <;> cases executable <;> decide

/-! ## The walk in the kernel half -/

/-- Where a word of a table of level `l` may lead. -/
def Into (K : Nat → Set Nat) : Nat → Nat → Prop
  | 0, _ => True
  | l + 1, e => e ≠ 0 → e &&& HUGE_PAGE = 0 → frameAddr e ∈ K l

/-- Tables in use, by level, that the table words of the upper ones stay inside. -/
structure Region (m : Machine) (K : Nat → Set Nat) : Prop where
  closed : ∀ l, ∀ t ∈ K l, ∀ i < 512, Into K l (m.mem t i)
  used : ∀ l, ∀ t ∈ K l, t ∉ m.fa.avail
  level : ∀ a b t, t ∈ K a → t ∈ K b → a = b

theorem Into.mono (into : Into K l e) (sub : ∀ a, K a ⊆ K' a) : Into K' l e := by
  cases l with
  | zero => trivial
  | succ l => exact fun used small => sub l (into used small)

theorem into_zero (K : Nat → Set Nat) (l : Nat) : Into K l 0 := by
  cases l with
  | zero => trivial
  | succ l => exact fun no => absurd rfl no

theorem Region.setWord (region : Region m K)
    (into : ∀ a, t ∈ K a → Into K a w) : Region (m.setWord t i w) K := by
  refine ⟨?_, region.used, region.level⟩
  intro a f member j inside
  by_cases here : f = t
  · subst here
    by_cases word : j = i
    · rw [word, setWord_self]
      exact into a member
    · rw [setWord_index word]
      exact region.closed a f member j inside
  · rw [setWord_frame here]
    exact region.closed a f member j inside

theorem Region.keep (region : Region m K) (sub : m'.fa.avail ⊆ m.fa.avail)
    (same : ∀ a, ∀ f ∈ K a, m'.mem f = m.mem f) : Region m' K := by
  refine ⟨?_, fun a f member no => region.used a f member (sub no), region.level⟩
  intro a f member i inside
  rw [same a f member]
  exact region.closed a f member i inside

/-- The region with a new table on level `l`. -/
def extendRegion (K : Nat → Set Nat) (l q : Nat) : Nat → Set Nat :=
  fun a => if a = l then insert q (K a) else K a

theorem subset_extendRegion (K : Nat → Set Nat) (l q a : Nat) : K a ⊆ extendRegion K l q a := by
  unfold extendRegion
  split_ifs
  · exact Set.subset_insert _ _
  · exact subset_rfl

theorem mem_extendRegion {a f : Nat} : f ∈ extendRegion K l q a ↔ (a = l ∧ f = q) ∨ f ∈ K a := by
  unfold extendRegion
  split_ifs with here
  · simp [here]
  · simp [here]

theorem Region.link (region : Region m K) (got : m.Allocated q m') (lvl : ∀ a, t ∈ K a → a = l + 1) :
    Region (m'.link t i q flags) (extendRegion K l q) := by
  have fresh : ∀ a, q ∉ K a := fun a no => region.used a q no got.mem
  refine ⟨?_, ?_, ?_⟩
  · intro a f member j inside
    rcases mem_extendRegion.mp member with ⟨rfl, rfl⟩ | old
    · rw [link_zero]
      exact into_zero _ _
    · have used := region.used a f old
      by_cases here : f = t
      · subst here
        cases lvl a old
        obtain ⟨word, words⟩ := got.link_table i flags used
        by_cases at_i : j = i
        · rw [at_i, word]
          intro _ _
          rw [frameAddr_or_parentFlags, got.frame]
          exact mem_extendRegion.mpr (.inl ⟨rfl, rfl⟩)
        · rw [words j at_i]
          exact (region.closed _ f old j inside).mono (subset_extendRegion K l q)
      · rw [got.link_mem used here]
        exact (region.closed a f old j inside).mono (subset_extendRegion K l q)
  · intro a f member no
    rcases mem_extendRegion.mp member with ⟨rfl, rfl⟩ | old
    · exact (got.sub no).2 rfl
    · exact region.used a f old (got.sub no).1
  · intro a b f first second
    rcases mem_extendRegion.mp first with ⟨rfl, rfl⟩ | old
    · rcases mem_extendRegion.mp second with ⟨rfl, _⟩ | old
      · rfl
      · exact absurd old (fresh b)
    · rcases mem_extendRegion.mp second with ⟨rfl, rfl⟩ | old'
      · exact absurd old (fresh a)
      · exact region.level a b f old old'

/-- The effect of a walk through a region, from the table `t` on. -/
structure Walked (m m' : Machine) (K K' : Nat → Set Nat) (l t i : Nat) (new : List Nat) : Prop where
  grown : Grown m m' new
  region : Region m' K'
  mono : ∀ a, K a ⊆ K' a
  only : ∀ a, ∀ f ∈ K' a, f ∈ K a ∨ f ∈ new
  into : Into K' l (m'.mem t i)
  keep : ∀ f, f ∉ m.fa.avail → f ≠ t → (∀ a < l, f ∉ K a) → m'.mem f = m.mem f
  others : ∀ j, j ≠ i → m'.mem t j = m.mem t j

theorem Walked.refl (wf : m.fa.Wf) (region : Region m K)
    (into : Into K l (m.mem t i)) : Walked m m K K l t i [] :=
  ⟨Grown.refl wf, region, fun _ => subset_rfl, fun _ _ => Or.inl, into, fun _ _ _ _ => rfl, fun _ _ => rfl⟩

theorem Walked.setWord (wf : m.fa.Wf) (region : Region m K)
    (lvl : ∀ a, t ∈ K a → a = l) (into : Into K l w) : Walked m (m.setWord t i w) K K l t i [] := by
  refine ⟨(Grown.refl wf).setWord _ _ _, region.setWord fun a member => lvl a member ▸ into,
    fun _ => subset_rfl, fun _ _ => Or.inl, ?_, fun f _ other _ => setWord_frame other,
    fun j other => setWord_index other⟩
  rw [setWord_self]
  exact into

theorem Walked.created (got : m.Allocated q m'')
    (walked : Walked (m''.link t i q flags) m' (extendRegion K l q) K' l q j new) (target : t ∉ m.fa.avail)
    (lvl : ∀ a, t ∈ K a → a = l + 1) :
    Walked m m' K K' (l + 1) t i (new ++ [q]) ∧ m'.mem t = (m''.link t i q flags).mem t := by
  have linked : Grown m (m''.link t i q flags) [q] := (got.grown.setWord _ _ _).setFrame _ _
  have above : ∀ f, f ∉ m.fa.avail → (∀ a < l, f ∉ K a) → m'.mem f = (m''.link t i q flags).mem f := by
    intro f used outside
    refine walked.keep f (linked.keeps_used used) (fun eq => used (eq ▸ got.mem)) ?_
    intro a below member
    rcases mem_extendRegion.mp member with ⟨rfl, _⟩ | old
    · exact lt_irrefl _ below
    · exact outside a below old
  have table := above t target fun a below member => by have := lvl a member; omega
  obtain ⟨word, words⟩ := got.link_table i flags target
  refine ⟨⟨linked.trans walked.grown, walked.region, fun a => (subset_extendRegion K l q a).trans (walked.mono a),
    ?_, ?_, ?_, ?_⟩, table⟩
  · intro a f member
    rcases walked.only a f member with old | early
    · rcases mem_extendRegion.mp old with ⟨_, rfl⟩ | old
      · exact .inr (by simp)
      · exact .inl old
    · exact .inr (mem_append_left _ early)
  · rw [table, word]
    intro _ _
    rw [frameAddr_or_parentFlags, got.frame]
    exact walked.mono l (mem_extendRegion.mpr (.inl ⟨rfl, rfl⟩))
  · intro f used other outside
    rw [above f used fun a below => outside a (lt_succ_of_lt below), got.link_mem used other]
  · intro j other
    rw [table, words j other]

theorem Walked.followed (wf : m.fa.Wf)
    (walked : Walked (m.setWord t i (m.mem t i ||| parentFlags flags)) m' K K' l (frameAddr (m.mem t i)) j new)
    (child : frameAddr (m.mem t i) ∈ K l) (target : t ∉ m.fa.avail) (lvl : ∀ a, t ∈ K a → a = l + 1) :
    Walked m m' K K' (l + 1) t i new ∧ m'.mem t = (m.setWord t i (m.mem t i ||| parentFlags flags)).mem t := by
  have grown : Grown m m' new := by
    simpa using ((Grown.refl wf).setWord _ _ _).trans walked.grown
  have table := walked.keep t target
    (fun eq => by have := lvl l (eq ▸ child); omega)
    (fun a below member => by have := lvl a member; omega)
  refine ⟨⟨grown, walked.region, walked.mono, walked.only, ?_, ?_, ?_⟩, table⟩
  · rw [table, setWord_self]
    intro _ _
    rw [frameAddr_or_parentFlags]
    exact walked.mono l child
  · intro f taken other outside
    rw [walked.keep f taken (fun eq => outside l (lt_succ_self l) (eq ▸ child))
      fun a below => outside a (lt_succ_of_lt below), setWord_frame other]
  · intro j other
    rw [table, setWord_index other]

theorem Region.flagged (region : Region m K) (flags : Nat)
    (child : frameAddr (m.mem t i) ∈ K l) (lvl : ∀ a, t ∈ K a → a = l + 1) :
    Region (m.setWord t i (m.mem t i ||| parentFlags flags)) K := by
  refine region.setWord fun a member => ?_
  cases lvl a member
  intro _ _
  rw [frameAddr_or_parentFlags]
  exact child

/-- A walk from a word of the kernel half stays in the region, which grows by the tables
    the walk creates. -/
theorem mapWalk_region (walk : MapWalk virt p flags l t m ok m') (wf : m.fa.Wf) (region : Region m K)
    (target : t ∉ m.fa.avail) (lvl : ∀ a, t ∈ K a → a = l) (into : Into K l (m.mem t (tableIndex l virt))) :
    ∃ K' new, Walked m m' K K' l t (tableIndex l virt) new := by
  induction walk generalizing K with
  | mapped unused => exact ⟨K, [], .setWord wf region lvl trivial⟩
  | taken used => exact ⟨K, [], .refl wf region into⟩
  | exhausted unused empty =>
    cases allocFrame_none empty
    exact ⟨K, [], .refl wf region into⟩
  | @created l t q m m₁ m' ok unused fresh rest ih =>
    have got := allocFrame_some wf fresh
    have linked : Grown m (m₁.link t (tableIndex (l + 1) virt) q flags) [q] :=
      (got.grown.setWord _ _ _).setFrame _ _
    have only : ∀ a, q ∈ extendRegion K l q a → a = l := fun a member =>
      (mem_extendRegion.mp member).elim And.left fun no => absurd got.mem (region.used a q no)
    have zero : (m₁.link t (tableIndex (l + 1) virt) q flags).mem q (tableIndex l virt) = 0 := link_zero ..
    obtain ⟨K', new, walked⟩ := ih linked.wf (region.link got lvl)
      (linked.fresh q (List.mem_singleton_self q)).2 only (by rw [← link, zero]; exact into_zero _ _)
    exact ⟨K', _, (Walked.created got walked target lvl).1⟩
  | huge used big =>
    refine ⟨K, [], .setWord wf region lvl fun _ small => ?_⟩
    rw [huge_or_parentFlags] at small
    exact absurd small big
  | @followed l t m m' ok used small rest ih =>
    have child := into used small
    have region₁ := region.flagged flags child lvl
    obtain ⟨K', new, walked⟩ := ih wf region₁ (region.used l _ child)
      (fun a member => region.level a l _ member child) (region₁.closed l _ child _ (tableIndex_lt l virt))
    exact ⟨K', new, (Walked.followed wf walked child target lvl).1⟩

end Machine

end Zenus.Mem
