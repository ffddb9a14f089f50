import Zenus.Mem.PageEntry

/-! # Cloning a tree of tables

`CopyEntry` relates a word of the source to the word the clone writes for it, down
to the contents of the pages.  A clone writes only frames that the allocator hands
out on the way, so the source stays as it was, and the frames of the copy are
distinct from each other and from everything that was in use.
-/

namespace Zenus.Mem

open Lib.Radix List Option Lib.Loop Nat

/-! ## The allocator from the paging code -/

namespace Machine

/-- The fields that allocation and table writes leave alone. -/
def statics (m : Machine) : Nat × Nat × Nat × Nat × Nat × (Nat → Nat) :=
  (m.cr3, m.hhdmOffset, m.level4Phys, m.kernelCr3, m.freedCr3Count, m.freedCr3List)

/-- What a successful allocation does. -/
structure Allocated (m : Machine) (p : Nat) (m' : Machine) : Prop where
  frame : IsFrame p
  mem : p ∈ m.fa.avail
  wf : m'.fa.Wf
  sub : m'.fa.avail ⊆ m.fa.avail \ {p}
  store : m'.mem = m.mem
  statics : m'.statics = m.statics
  served : m'.served = p :: m.served
  stack : m.fa.freeStack = p :: m'.fa.freeStack ∨ (m.fa.freeStack = [] ∧ m'.fa.freeStack = [])

variable {m m' : Machine} {p f i j w g : Nat}

theorem allocFrame_some (wf : m.fa.Wf) (got : m.allocFrame = some (some p, m')) : m.Allocated p m' := by
  obtain ⟨⟨frame, fa⟩, inner, same⟩ := map_eq_some_iff.mp got
  cases same
  obtain ⟨took, stack⟩ := wf.allocFrame_took inner
  exact ⟨isFrame_of_page took.page took.small, took.mem, took.wf, took.sub, rfl, rfl, rfl, stack⟩

theorem allocFrame_none (got : m.allocFrame = some (none, m')) : m' = m := by
  obtain ⟨⟨frame, fa⟩, inner, same⟩ := map_eq_some_iff.mp got
  cases same
  cases FrameAllocator.allocFrame_empty inner
  rfl

theorem setWord_self (m : Machine) (f i w : Nat) : (m.setWord f i w).mem f i = w := by
  simp [setWord]

theorem setWord_index (other : j ≠ i) : (m.setWord f i w).mem f j = m.mem f j := by
  simp [setWord, other]

theorem setWord_frame (other : g ≠ f) : (m.setWord f i w).mem g = m.mem g := by
  simp [setWord, other]

theorem setFrame_self (m : Machine) (f : Nat) (words : Nat → Nat) : (m.setFrame f words).mem f = words := by
  simp [setFrame]

theorem setFrame_frame {words : Nat → Nat} (other : g ≠ f) : (m.setFrame f words).mem g = m.mem g := by
  simp [setFrame, other]

end Machine

/-! ## Copies -/

/-- The word `e'` of the copy stands for the word `e` of the source. -/
def CopyEntry (mem mem' : Nat → Nat → Nat) : Nat → Nat → Nat → Prop
  | 0, e, e' =>
    (e &&& PRESENT = 0 → e' = 0) ∧
    (e &&& PRESENT ≠ 0 → e &&& WRITABLE ≠ 0 →
      ∃ p, IsFrame p ∧ e' = p ||| (e &&& 0xFFF) ∧ mem' p = mem (frameAddr e)) ∧
    (e &&& PRESENT ≠ 0 → e &&& WRITABLE = 0 → e' = e)
  | l + 1, e, e' =>
    (e &&& PRESENT = 0 → e' = 0) ∧
    (e &&& PRESENT ≠ 0 → ∃ p, IsFrame p ∧ e' = p ||| (e &&& 0xFFF) ∧
      ∀ i < 512, CopyEntry mem mem' l (mem (frameAddr e) i) (mem' p i))

theorem copyEntry_absent {mem mem' : Nat → Nat → Nat} {l e : Nat} (absent : e &&& PRESENT = 0) :
    CopyEntry mem mem' l e 0 := by
  cases l with
  | zero => exact ⟨fun _ => rfl, fun no => absurd absent no, fun no => absurd absent no⟩
  | succ l => exact ⟨fun _ => rfl, fun no => absurd absent no⟩

theorem CopyEntry.congr {mem mem₁ mem₂ : Nat → Nat → Nat} {l e e' : Nat}
    (copy : CopyEntry mem mem₁ l e e') (same : ∀ f ∈ hang owned mem₁ l e', mem₂ f = mem₁ f) :
    CopyEntry mem mem₂ l e e' := by
  induction l generalizing e e' with
  | zero =>
    refine ⟨copy.1, ?_, copy.2.2⟩
    intro present writable
    obtain ⟨p, frame, rfl, contents⟩ := copy.2.1 present writable
    refine ⟨p, frame, rfl, (same p ?_).trans contents⟩
    have shown : owned.page (p ||| (e &&& 0xFFF)) = some p := by
      simp only [owned]
      rw [if_neg (by rwa [writable_or_low frame]), tableOf_or_low frame present]
    rw [hang_zero, shown]
    exact mem_singleton_self p
  | succ l ih =>
    refine ⟨copy.1, ?_⟩
    intro present
    obtain ⟨p, frame, rfl, below⟩ := copy.2 present
    have table : owned.table (p ||| (e &&& 0xFFF)) = some p := tableOf_or_low frame present
    rw [hang_some table] at same
    refine ⟨p, frame, rfl, ?_⟩
    intro i inside
    rw [same p (by simp)]
    refine ih (below i inside) fun f member => same f (mem_append_left _ ?_)
    exact hang_sub_frames inside f member

/-- A property of words that only depends on the low flag bits carries over to the
    copy. -/
theorem CopyEntry.all {P : Nat → Nat → Prop} {mem mem' : Nat → Nat → Nat} {l e e' : Nat}
    (copy : CopyEntry mem mem' l e e') (zero : ∀ l, P l 0)
    (flags : ∀ l p e, IsFrame p → e &&& PRESENT ≠ 0 → P l e → P l (p ||| (e &&& 0xFFF)))
    (all : All mapped P mem l e) : All mapped P mem' l e' := by
  induction l generalizing e e' with
  | zero =>
    by_cases absent : e &&& PRESENT = 0
    · rw [copy.1 absent]
      exact zero 0
    · by_cases readOnly : e &&& WRITABLE = 0
      · rw [copy.2.2 absent readOnly]
        exact all
      · obtain ⟨p, frame, rfl, _⟩ := copy.2.1 absent readOnly
        exact flags 0 p e frame absent all
  | succ l ih =>
    by_cases absent : e &&& PRESENT = 0
    · rw [copy.1 absent]
      exact ⟨zero (l + 1), fun c no => by cases no⟩
    · obtain ⟨p, frame, rfl, below⟩ := copy.2 absent
      refine ⟨flags (l + 1) p e frame absent all.1, ?_⟩
      intro c table i inside
      cases (tableOf_or_low frame absent).symm.trans table
      exact ih (below i inside) (all.2 _ (tableOf_some absent) i inside)

def AllWritable (l e : Nat) : Prop := l = 0 → e &&& PRESENT ≠ 0 → e &&& WRITABLE ≠ 0

instance (l e : Nat) : Decidable (AllWritable l e) := inferInstanceAs (Decidable (_ → _))

theorem hang_owned_eq {mem : Nat → Nat → Nat} {l e : Nat} (writable : All mapped AllWritable mem l e) :
    hang owned mem l e = hang mapped mem l e := by
  induction l generalizing e with
  | zero =>
    rw [hang_zero, hang_zero]
    simp only [owned, mapped]
    split_ifs with readOnly
    · by_cases absent : e &&& PRESENT = 0
      · rw [tableOf_none absent]
      · exact absurd readOnly (writable rfl absent)
    · rfl
  | succ l ih =>
    cases table : tableOf e with
    | none => rw [hang_none table, hang_none table]
    | some c =>
      rw [hang_some table, hang_some table]
      refine congrArg (· ++ [c]) (flatMap_congr ?_)
      intro i inside
      exact ih (writable.2 c table i (mem_range.mp inside))

namespace Machine

variable {mem₀ : Nat → Nat → Nat} {m m' : Machine} {l e src dst i : Nat} {ok : Bool} {m₁ m'' : Machine}
variable {t c j k p root n cr3 : Nat}

/-- What any part of a clone that writes to the table `dst` leaves alone. -/
structure Kept (m m' : Machine) (dst : Nat) : Prop where
  wf : m'.fa.Wf
  sub : m'.fa.avail ⊆ m.fa.avail
  statics : m'.statics = m.statics
  keep : ∀ f, f ∉ m.fa.avail → f ≠ dst → m'.mem f = m.mem f

/-- The source below a word is what it was in `mem₀`, in use, and not the table
    being written. -/
def Source (mem₀ : Nat → Nat → Nat) (m : Machine) (dst l e : Nat) : Prop :=
  ∀ f ∈ hang mapped mem₀ l e, m.mem f = mem₀ f ∧ f ∉ m.fa.avail ∧ f ≠ dst

/-- The word at `i` of `dst` is a copy of `e` made of fresh frames. -/
structure Copied (mem₀ : Nat → Nat → Nat) (m m' : Machine) (dst l e i : Nat) : Prop where
  copy : CopyEntry mem₀ m'.mem l e (m'.mem dst i)
  nodup : (hang owned m'.mem l (m'.mem dst i)).Nodup
  fresh : ∀ f ∈ hang owned m'.mem l (m'.mem dst i), f ∈ m.fa.avail ∧ f ∉ m'.fa.avail

/-- One round of the clone, whatever its outcome. -/
structure Round (mem₀ : Nat → Nat → Nat) (m m' : Machine) (dst l e i : Nat) (ok : Bool) : Prop where
  kept : Kept m m' dst
  others : ∀ j, j ≠ i → m'.mem dst j = m.mem dst j
  copied : ok = true → Copied mem₀ m m' dst l e i

/-- What a round may assume. -/
structure Ready (mem₀ : Nat → Nat → Nat) (m : Machine) (src dst l i : Nat) : Prop where
  wf : m.fa.Wf
  target : dst ∉ m.fa.avail
  word : m.mem src i = mem₀ src i
  source : Source mem₀ m dst l (mem₀ src i)
  blank : m.mem dst i = 0

theorem Kept.refl (wf : m.fa.Wf) (dst : Nat) : Kept m m dst :=
  ⟨wf, subset_rfl, rfl, fun _ _ _ => rfl⟩

theorem Kept.trans (before : Kept m m' dst) (after : Kept m' m'' dst) : Kept m m'' dst where
  wf := after.wf
  sub := after.sub.trans before.sub
  statics := after.statics.trans before.statics
  keep f used other := (after.keep f (fun no => used (before.sub no)) other).trans (before.keep f used other)

theorem Ready.absent (ready : Ready mem₀ m src dst l i) (nothing : mem₀ src i &&& PRESENT = 0) :
    Round mem₀ m m dst l (mem₀ src i) i true := by
  have empty : hang owned m.mem l (m.mem dst i) = [] := by
    rw [ready.blank]
    cases l with
    | zero => rfl
    | succ l => exact hang_none rfl
  refine ⟨Kept.refl ready.wf dst, fun _ _ => rfl, fun _ => ⟨?_, ?_, ?_⟩⟩
  · rw [ready.blank]
    exact copyEntry_absent nothing
  · rw [empty]
    exact nodup_nil
  · simp [empty]

theorem Ready.exhausted (ready : Ready mem₀ m src dst l i) :
    Round mem₀ m m dst l (mem₀ src i) i false :=
  ⟨Kept.refl ready.wf dst, fun _ _ => rfl, by simp⟩

theorem clonePage_round (ready : Ready mem₀ m src dst 0 i)
    (run : clonePage src dst i m = some (ok, m')) : Round mem₀ m m' dst 0 (mem₀ src i) i ok := by
  unfold clonePage at run
  rw [ready.word] at run
  dsimp only at run
  split_ifs at run with absent writable
  · cases run
    exact ready.absent absent
  · split at run
    · cases run
    · next empty =>
      cases run
      cases allocFrame_none empty
      exact ready.exhausted
    · next p m₁ got =>
      cases run
      have new := allocFrame_some ready.wf got
      have other : p ≠ dst := fun eq => ready.target (eq ▸ new.mem)
      have page : owned.page (p ||| (mem₀ src i &&& 0xFFF)) = some p := by
        simp only [owned]
        rw [if_neg (by rwa [writable_or_low new.frame]), tableOf_or_low new.frame absent]
      have source : m₁.mem (frameAddr (mem₀ src i)) = mem₀ (frameAddr (mem₀ src i)) := by
        rw [new.store]
        refine (ready.source _ ?_).1
        rw [hang_zero, show mapped.page (mem₀ src i) = some _ from tableOf_some absent]
        exact mem_singleton_self _
      rw [new.frame.pageBase]
      refine ⟨⟨new.wf, new.sub.trans Set.sdiff_subset, new.statics, ?_⟩, ?_, fun _ => ⟨?_, ?_, ?_⟩⟩
      · intro f used notDst
        have notNew : f ≠ p := fun eq => used (eq ▸ new.mem)
        rw [setWord_frame notDst, setFrame_frame notNew, new.store]
      · intro j notI
        rw [setWord_index notI, setFrame_frame (Ne.symm other), new.store]
      · rw [setWord_self]
        refine ⟨fun no => absurd no absent, fun _ _ => ⟨p, new.frame, rfl, ?_⟩,
          fun _ no => absurd no writable⟩
        rw [setWord_frame other, setFrame_self, source]
      · rw [setWord_self, hang_zero, page]
        exact nodup_singleton p
      · rw [setWord_self, hang_zero, page]
        intro f here
        cases mem_singleton.mp here
        exact ⟨new.mem, fun still => (new.sub still).2 rfl⟩
  · -- read-only: the word is shared as it is
    cases run
    have readOnly : mem₀ src i &&& WRITABLE = 0 := by simpa using writable
    have nothing : owned.page (mem₀ src i) = none := if_pos readOnly
    refine ⟨⟨ready.wf, subset_rfl, rfl, fun f _ other => setWord_frame other⟩,
      fun j other => setWord_index other, fun _ => ?_⟩
    refine ⟨?_, ?_, ?_⟩
    · rw [setWord_self]
      exact ⟨fun no => absurd no absent, fun _ no => absurd readOnly no, fun _ _ => rfl⟩
    · rw [setWord_self, hang_zero, nothing]
      exact nodup_nil
    · rw [setWord_self, hang_zero, nothing]
      simp

/-- The first `j` words of the table `c` are copies of those of `t`. -/
structure Filled (mem₀ : Nat → Nat → Nat) (m m' : Machine) (t c l j : Nat) : Prop where
  kept : Kept m m' c
  rest : ∀ i, j ≤ i → m'.mem c i = m.mem c i
  copy : ∀ i < j, CopyEntry mem₀ m'.mem l (mem₀ t i) (m'.mem c i)
  nodup : (frames owned m'.mem l c j).Nodup
  fresh : ∀ f ∈ frames owned m'.mem l c j, f ∈ m.fa.avail ∧ f ∉ m'.fa.avail

/-- What filling the first `k` words of a table may assume. -/
structure Fillable (mem₀ : Nat → Nat → Nat) (m : Machine) (t c l k : Nat) : Prop where
  wf : m.fa.Wf
  target : c ∉ m.fa.avail
  table : m.mem t = mem₀ t ∧ t ∉ m.fa.avail ∧ t ≠ c
  source : ∀ f ∈ frames mapped mem₀ l t k, m.mem f = mem₀ f ∧ f ∉ m.fa.avail ∧ f ≠ c
  blank : ∀ i < k, m.mem c i = 0

theorem Filled.ready (start : Fillable mem₀ m t c l k)
    (filled : Filled mem₀ m m' t c l j) (inside : j < k) : Ready mem₀ m' t c l j := by
  have kept := filled.kept
  refine ⟨kept.wf, fun no => start.target (kept.sub no), ?_, ?_, ?_⟩
  · rw [kept.keep t start.table.2.1 start.table.2.2, start.table.1]
  · intro f member
    obtain ⟨same, used, other⟩ := start.source f (hang_sub_frames inside f member)
    exact ⟨(kept.keep f used other).trans same, fun no => used (kept.sub no), other⟩
  · rw [filled.rest j le_rfl]
    exact start.blank j inside

/-- A successful round fills one more word: what the earlier rounds built is out of
    its reach. -/
theorem Filled.succ (target : c ∉ m.fa.avail)
    (filled : Filled mem₀ m m' t c l j) (round : Round mem₀ m' m'' c l (mem₀ t j) j true) :
    Filled mem₀ m m'' t c l (j + 1) := by
  have kept := round.kept
  have copied := round.copied rfl
  have old : ∀ f ∈ frames owned m'.mem l c j, m''.mem f = m'.mem f := by
    intro f member
    obtain ⟨was, gone⟩ := filled.fresh f member
    exact kept.keep f gone fun eq => target (eq ▸ was)
  have words : ∀ i < j, m''.mem c i = m'.mem c i := fun i before => round.others i before.ne
  have same : frames owned m''.mem l c j = frames owned m'.mem l c j := frames_congr words old
  refine ⟨filled.kept.trans kept, ?_, ?_, ?_, ?_⟩
  · intro i after
    rw [round.others i (by omega), filled.rest i (by omega)]
  · intro i before
    rcases Nat.lt_succ_iff_lt_or_eq.mp before with before | rfl
    · rw [words i before]
      refine (filled.copy i before).congr fun f member => old f ?_
      exact hang_sub_frames before f member
    · exact copied.copy
  · rw [frames_succ, same]
    refine nodup_append.mpr ⟨filled.nodup, copied.nodup, ?_⟩
    rintro f early g late rfl
    exact (filled.fresh f early).2 (copied.fresh f late).1
  · rw [frames_succ, same]
    intro f member
    rcases mem_append.mp member with early | late
    · exact ⟨(filled.fresh f early).1, fun no => (filled.fresh f early).2 (kept.sub no)⟩
    · exact ⟨filled.kept.sub (copied.fresh f late).1, (copied.fresh f late).2⟩

theorem Fillable.filled_zero (start : Fillable mem₀ m t c l k) :
    Filled mem₀ m m t c l 0 :=
  ⟨Kept.refl start.wf c, fun _ _ => rfl, fun _ no => absurd no (not_lt_zero _), nodup_nil, by simp⟩

theorem cloneTable_outcome (rounds : ∀ {m m' : Machine} {i : Nat} {ok : Bool}, Ready mem₀ m t c l i →
      cloneEntry l t c i m = some (ok, m') → Round mem₀ m m' c l (mem₀ t i) i ok)
    (start : Fillable mem₀ m t c l k) (ok : Bool) (m' : Machine)
    (run : upTo (cloneEntry l t c) k m = some (ok, m')) :
    (ok = true → Filled mem₀ m m' t c l k) ∧
      (ok = false → Kept m m' c ∧ ∀ i, k ≤ i → m'.mem c i = m.mem c i) := by
  refine upTo_outcome (P := fun j s => Filled mem₀ m s t c l j)
    (Q := fun s => Kept m s c ∧ ∀ i, k ≤ i → s.mem c i = m.mem c i) ?_ start.filled_zero run
  intro j inside s s' ok filled stepped
  have round := rounds (filled.ready start inside) stepped
  constructor
  · rintro rfl
    exact filled.succ start.target round
  · refine fun _ => ⟨filled.kept.trans round.kept, fun i after => ?_⟩
    rw [round.others i (by omega), filled.rest i (by omega)]

theorem Ready.fillable (ready : Ready mem₀ m src dst (l + 1) i)
    (present : mem₀ src i &&& PRESENT ≠ 0) (new : m.Allocated p m₁) :
    Fillable mem₀ (m₁.zeroFrame p) (frameAddr (mem₀ src i)) p l 512 := by
  have below : hang mapped mem₀ (l + 1) (mem₀ src i) =
      frames mapped mem₀ l (frameAddr (mem₀ src i)) 512 ++ [frameAddr (mem₀ src i)] :=
    hang_some (tableOf_some present)
  have source : ∀ f ∈ frames mapped mem₀ l (frameAddr (mem₀ src i)) 512 ++ [frameAddr (mem₀ src i)],
      (m₁.zeroFrame p).mem f = mem₀ f ∧ f ∉ m₁.fa.avail ∧ f ≠ p := by
    intro f member
    obtain ⟨same, used, _⟩ := ready.source f (below ▸ member)
    have other : f ≠ p := fun eq => used (eq ▸ new.mem)
    refine ⟨?_, fun no => used (new.sub no).1, other⟩
    rw [zeroFrame, setFrame_frame other, new.store, same]
  refine ⟨new.wf, fun no => (new.sub no).2 rfl, source _ (by simp), ?_, ?_⟩
  · exact fun f member => source f (mem_append_left _ member)
  · intro j _
    rw [zeroFrame, setFrame_self]

theorem Allocated.kept (new : m.Allocated p m₁) (dst : Nat)
    (inner : Kept (m₁.zeroFrame p) m' p) : Kept m m' dst ∧ ∀ f, f ∉ m.fa.avail → m'.mem f = m.mem f := by
  have outside : ∀ f, f ∉ m.fa.avail → m'.mem f = m.mem f := by
    intro f used
    have other : f ≠ p := fun eq => used (eq ▸ new.mem)
    rw [inner.keep f (fun no => used (new.sub no).1) other, zeroFrame, setFrame_frame other, new.store]
  exact ⟨⟨inner.wf, inner.sub.trans (new.sub.trans Set.sdiff_subset),
    inner.statics.trans new.statics, fun f used _ => outside f used⟩, outside⟩

theorem Filled.link (ready : Ready mem₀ m src dst (l + 1) i)
    (present : mem₀ src i &&& PRESENT ≠ 0) (new : m.Allocated p m₁)
    (filled : Filled mem₀ (m₁.zeroFrame p) m' (frameAddr (mem₀ src i)) p l 512) :
    Round mem₀ m (m'.setWord dst i (p ||| (mem₀ src i &&& 0xFFF))) dst (l + 1) (mem₀ src i) i true := by
  obtain ⟨kept, outside⟩ := new.kept dst filled.kept
  have target := ready.target
  have other : p ≠ dst := fun eq => target (eq ▸ new.mem)
  have inPool : ∀ f ∈ frames owned m'.mem l p 512, f ∈ m₁.fa.avail := fun f member =>
    (filled.fresh f member).1
  have notDst : ∀ f ∈ frames owned m'.mem l p 512, f ≠ dst := by
    rintro f member rfl
    exact target (new.sub (inPool f member)).1
  have same : frames owned (m'.setWord dst i (p ||| (mem₀ src i &&& 0xFFF))).mem l p 512 =
      frames owned m'.mem l p 512 := by
    refine frames_congr (fun j _ => by rw [setWord_frame other]) ?_
    exact fun f member => setWord_frame (notDst f member)
  have below : hang owned (m'.setWord dst i (p ||| (mem₀ src i &&& 0xFFF))).mem (l + 1)
      (p ||| (mem₀ src i &&& 0xFFF)) = frames owned m'.mem l p 512 ++ [p] := by
    rw [hang_some (tableOf_or_low new.frame present)]
    exact congrArg (· ++ [p]) same
  refine ⟨⟨kept.wf, kept.sub, kept.statics, ?_⟩, ?_, fun _ => ⟨?_, ?_, ?_⟩⟩
  · intro f used notDst
    rw [setWord_frame notDst, outside f used]
  · intro j notI
    rw [setWord_index notI, outside dst target]
  · rw [setWord_self]
    refine ⟨fun no => absurd no present, fun _ => ⟨p, new.frame, rfl, ?_⟩⟩
    intro j inside
    rw [setWord_frame other]
    refine (filled.copy j inside).congr fun f member => setWord_frame (notDst f ?_)
    exact hang_sub_frames inside f member
  · rw [setWord_self, below]
    refine nodup_append.mpr ⟨filled.nodup, nodup_singleton p, ?_⟩
    rintro f early g last rfl
    obtain rfl := mem_singleton.mp last
    exact (new.sub (inPool f early)).2 rfl
  · rw [setWord_self, below]
    intro f member
    rcases mem_append.mp member with early | last
    · exact ⟨(new.sub (inPool f early)).1, (filled.fresh f early).2⟩
    · obtain rfl := mem_singleton.mp last
      exact ⟨new.mem, fun no => (new.sub (filled.kept.sub no)).2 rfl⟩

theorem cloneEntry_round (ready : Ready mem₀ m src dst l i) (run : cloneEntry l src dst i m = some (ok, m')) :
    Round mem₀ m m' dst l (mem₀ src i) i ok := by
  induction l generalizing m m' src dst i ok with
  | zero => exact clonePage_round ready run
  | succ l ih =>
    unfold cloneEntry at run
    rw [ready.word] at run
    dsimp only at run
    split_ifs at run with absent
    · cases run
      exact ready.absent absent
    · split at run
      · cases run
      · next empty =>
        cases run
        cases allocFrame_none empty
        exact ready.exhausted
      · next p m₁ got =>
        have new := allocFrame_some ready.wf got
        rw [new.frame.pageBase] at run
        have outcome := cloneTable_outcome ih (ready.fillable absent new)
        split at run
        · next m'' filled =>
          cases run
          rw [linked_word absent]
          exact ((outcome true m'' filled).1 rfl).link ready absent new
        · next other =>
          cases ok with
          | true => exact absurd run (other m')
          | false =>
            obtain ⟨kept, outside⟩ := new.kept dst ((outcome false m' run).2 rfl).1
            exact ⟨kept, fun j _ => by rw [outside dst ready.target], by simp⟩

/-! ## Enough frames -/

theorem serves_succ (enough : m.fa.Serves (n + 1)) :
    ∃ p m', m.allocFrame = some (some p, m') ∧ m'.fa.Serves n := by
  obtain ⟨p, fa, got, rest⟩ := enough
  exact ⟨p, { m with fa := fa, served := p :: m.served }, by simp [allocFrame, got], rest⟩

theorem cloneTable_total (rounds : ∀ {m : Machine} {i n : Nat}, Ready mem₀ m t c l i →
      m.fa.Serves ((hang owned mem₀ l (mem₀ t i)).length + n) →
      ∃ m', cloneEntry l t c i m = some (true, m') ∧ m'.fa.Serves n)
    (start : Fillable mem₀ m t c l k) (enough : m.fa.Serves ((frames owned mem₀ l t k).length + n)) :
    ∃ m', upTo (cloneEntry l t c) k m = some (true, m') ∧ Filled mem₀ m m' t c l k ∧
      m'.fa.Serves n := by
  refine upTo_budget (P := fun j s => Filled mem₀ m s t c l j)
    (fun s n => s.fa.Serves n) (fun i => (hang owned mem₀ l (mem₀ t i)).length)
    (fun j => (frames owned mem₀ l t j).length) rfl ?_ ?_ start.filled_zero enough
  · intro j
    rw [frames_succ, length_append]
  · intro j inside s n filled budget
    have ready := filled.ready start inside
    obtain ⟨s', run, rest⟩ := rounds ready budget
    exact ⟨s', run, filled.succ start.target (cloneEntry_round ready run), rest⟩

theorem cloneEntry_total (ready : Ready mem₀ m src dst l i)
    (enough : m.fa.Serves ((hang owned mem₀ l (mem₀ src i)).length + n)) :
    ∃ m', cloneEntry l src dst i m = some (true, m') ∧ m'.fa.Serves n := by
  induction l generalizing m src dst i n with
  | zero =>
    unfold cloneEntry clonePage
    rw [ready.word]
    dsimp only
    split_ifs with absent writable
    · rw [hang_zero, show owned.page (mem₀ src i) = none by simp [owned, tableOf_none absent]] at enough
      exact ⟨m, rfl, by simpa using enough⟩
    · have page : owned.page (mem₀ src i) = some (frameAddr (mem₀ src i)) :=
        (if_neg writable).trans (tableOf_some absent)
      rw [hang_zero, page, toList_some, length_singleton, add_comm] at enough
      obtain ⟨p, m₁, got, rest⟩ := serves_succ enough
      rw [got]
      exact ⟨_, rfl, rest⟩
    · have page : owned.page (mem₀ src i) = none := if_pos (by simpa using writable)
      rw [hang_zero, page, toList_none, length_nil, zero_add] at enough
      exact ⟨_, rfl, enough⟩
  | succ l ih =>
    unfold cloneEntry
    rw [ready.word]
    dsimp only
    split_ifs with absent
    · rw [hang_none (tableOf_none absent)] at enough
      exact ⟨m, rfl, by simpa using enough⟩
    · rw [hang_some (tableOf_some absent), length_append, length_singleton,
        add_right_comm] at enough
      obtain ⟨p, m₁, got, rest⟩ := serves_succ enough
      have new := allocFrame_some ready.wf got
      rw [got]
      dsimp only
      rw [new.frame.pageBase]
      obtain ⟨m', run, _, left⟩ := cloneTable_total ih (ready.fillable absent new) rest
      rw [run]
      exact ⟨_, rfl, left⟩

/-! ## The whole clone -/

def userFrames (mem : Nat → Nat → Nat) (root : Nat) : List Nat := frames mapped mem 3 root 256 ++ [root]

/-- `m'` holds a clone of the space `src` of `m` under `root`. -/
structure ClonedSpace (m m' : Machine) (src root : Nat) : Prop where
  frame : IsFrame root
  wf : m'.fa.Wf
  sub : m'.fa.avail ⊆ m.fa.avail
  statics : m'.statics = m.statics
  keep : ∀ f, f ∉ m.fa.avail → m'.mem f = m.mem f
  copy : ∀ i < 256, CopyEntry m.mem m'.mem 3 (m.mem src i) (m'.mem root i)
  kernel : ∀ i, 256 ≤ i → m'.mem root i = m.mem (pageBase m.kernelCr3) (i - 256)
  nodup : (frames owned m'.mem 3 root 256 ++ [root]).Nodup
  fresh : ∀ f ∈ frames owned m'.mem 3 root 256 ++ [root], f ∈ m.fa.avail ∧ f ∉ m'.fa.avail

def freshRoot (m : Machine) (root : Nat) : Machine :=
  m.setFrame root fun i => if i < 256 then 0 else m.mem (pageBase m.kernelCr3) (i - 256)

theorem freshRoot_fillable (new : m.Allocated root m₁) (inUse : ∀ f ∈ userFrames m.mem src, f ∉ m.fa.avail) :
    Fillable m.mem (m₁.freshRoot root) src root 3 256 := by
  have source : ∀ f ∈ userFrames m.mem src,
      (m₁.freshRoot root).mem f = m.mem f ∧ f ∉ m₁.fa.avail ∧ f ≠ root := by
    intro f member
    have used := inUse f member
    have other : f ≠ root := fun eq => used (eq ▸ new.mem)
    refine ⟨?_, fun no => used (new.sub no).1, other⟩
    rw [freshRoot, setFrame_frame other, new.store]
  refine ⟨new.wf, fun no => (new.sub no).2 rfl, source src (by simp [userFrames]), ?_, ?_⟩
  · exact fun f member => source f (mem_append_left _ member)
  · intro i user
    rw [freshRoot, setFrame_self, if_pos user]

theorem Allocated.clonedSpace (new : m.Allocated root m₁)
    (filled : Filled m.mem (m₁.freshRoot root) m' src root 3 256) : ClonedSpace m m' src root := by
  have kernelCr3 : m₁.kernelCr3 = m.kernelCr3 := congrArg (fun s => s.2.2.2.1) new.statics
  refine ⟨new.frame, filled.kept.wf, filled.kept.sub.trans (new.sub.trans Set.sdiff_subset),
    filled.kept.statics.trans new.statics, ?_, filled.copy, ?_, ?_, ?_⟩
  · intro f used
    have other : f ≠ root := fun eq => used (eq ▸ new.mem)
    rw [filled.kept.keep f (fun no => used (new.sub no).1) other, freshRoot, setFrame_frame other, new.store]
  · intro i kernel
    rw [filled.rest i kernel, freshRoot, setFrame_self, if_neg (by omega), new.store, kernelCr3]
  · refine nodup_append.mpr ⟨filled.nodup, nodup_singleton root, ?_⟩
    rintro f early g last rfl
    obtain rfl := mem_singleton.mp last
    exact (new.sub (filled.fresh f early).1).2 rfl
  · intro f member
    rcases mem_append.mp member with early | last
    · exact ⟨(new.sub (filled.fresh f early).1).1, (filled.fresh f early).2⟩
    · obtain rfl := mem_singleton.mp last
      exact ⟨new.mem, fun no => (new.sub (filled.kept.sub no)).2 rfl⟩

theorem cloneUserAddressSpace_total (wf : m.fa.Wf)
    (inUse : ∀ f ∈ userFrames m.mem (pageBase cr3), f ∉ m.fa.avail)
    (enough : m.fa.Serves ((frames owned m.mem 3 (pageBase cr3) 256).length + 1)) :
    ∃ root m', m.cloneUserAddressSpace cr3 = some (some (root ||| (cr3 &&& 0b11000)), m') ∧
      ClonedSpace m m' (pageBase cr3) root := by
  obtain ⟨root, m₁, got, rest⟩ := serves_succ enough
  have new := allocFrame_some wf got
  obtain ⟨m', run, filled, _⟩ := cloneTable_total (n := 0) cloneEntry_total
    (freshRoot_fillable new inUse) rest
  refine ⟨root, m', ?_, new.clonedSpace filled⟩
  simp only [freshRoot] at run
  simp only [cloneUserAddressSpace, got, new.frame.pageBase, run]

/-- What any call of the clone does: it makes a clone, or runs out of frames and
    leaves everything in use as it was. -/
theorem cloneUserAddressSpace_outcome {result : Option Nat} (wf : m.fa.Wf)
    (inUse : ∀ f ∈ userFrames m.mem (pageBase cr3), f ∉ m.fa.avail)
    (run : m.cloneUserAddressSpace cr3 = some (result, m')) :
    (∃ root, result = some (root ||| (cr3 &&& 0b11000)) ∧ ClonedSpace m m' (pageBase cr3) root) ∨
    (result = none ∧ m'.fa.Wf ∧ m'.fa.avail ⊆ m.fa.avail ∧ m'.statics = m.statics ∧
      (∀ f, f ∉ m.fa.avail → m'.mem f = m.mem f) ∧
      ∀ root m₁, m.allocFrame = some (some root, m₁) → root ∉ m'.fa.avail) := by
  unfold cloneUserAddressSpace at run
  split at run
  · cases run
  · next empty =>
    cases run
    cases allocFrame_none empty
    exact .inr ⟨rfl, wf, subset_rfl, rfl, fun _ _ => rfl, by simp [empty]⟩
  · next root m₁ got =>
    have new := allocFrame_some wf got
    dsimp only at run
    rw [new.frame.pageBase] at run
    have outcome := cloneTable_outcome cloneEntry_round (freshRoot_fillable new inUse)
    simp only [freshRoot] at outcome
    split at run
    · cases run
    · next m'' failed =>
      obtain ⟨rfl, rfl⟩ := Prod.mk.inj (some.inj run)
      obtain ⟨kept, _⟩ := (outcome false m'' failed).2 rfl
      refine .inr ⟨rfl, kept.wf, kept.sub.trans (new.sub.trans Set.sdiff_subset),
        kept.statics.trans new.statics, ?_, ?_⟩
      · intro f used
        have other : f ≠ root := fun eq => used (eq ▸ new.mem)
        rw [kept.keep f (fun no => used (new.sub no).1) other, setFrame_frame other, new.store]
      · rintro _ _ again no
        cases got.symm.trans again
        exact (new.sub (kept.sub no)).2 rfl
    · next m'' filled =>
      obtain ⟨rfl, rfl⟩ := Prod.mk.inj (some.inj run)
      exact .inl ⟨root, rfl, new.clonedSpace ((outcome true m'' filled).1 rfl)⟩

end Machine

end Zenus.Mem
