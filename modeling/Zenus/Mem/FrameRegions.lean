import Zenus.Mem.FrameAllocator

/-! # Reserving a range, on lists

`reserve_region` reshapes two parallel arrays in place: it erases, trims and
splits regions and moves their low-pass cursors along.  `carve` says the same on
the list of live entries, and `reserveLoop_live` identifies the two, so that what
a reservation keeps is proved by induction on a list.
-/

namespace Zenus.Mem.FrameAllocator

open Lib.Word Lib.Slots Function List Nat

abbrev Entry := MemRegion × Nat

def live (fa : FrameAllocator) : List Entry :=
  slots (fun i => (fa.regions i, fa.lowCursor i)) fa.regionCount

theorem live_length (fa : FrameAllocator) : fa.live.length = fa.regionCount := slots_length _ _

variable {fa fa' : FrameAllocator} {e e' : Entry} {front rest : List Entry}

section

variable (h : fa.live = front ++ e :: rest)

include h

theorem live_at :
    front.length < fa.regionCount ∧ (fa.regions front.length, fa.lowCursor front.length) = e := by
  have bound : front.length < fa.live.length := by rw [h]; simp
  have here : fa.live[front.length] = e := by simp [h]
  rw [live_length] at bound
  refine ⟨bound, ?_⟩
  simpa only [live, slots_getElem] using here

omit h in
theorem live_eq {pairs : Nat → MemRegion × Nat}
    (each : ∀ i, (fa'.regions i, fa'.lowCursor i) = pairs i) : fa'.live = slots pairs fa'.regionCount := by
  rw [live, funext each]

theorem live_removeRegion : (fa.removeRegion front.length).live = front ++ rest := by
  have inside := (live_at h).1
  have erased := slots_shiftDown (fun i => (fa.regions i, fa.lowCursor i)) inside
  have paired : (fa.removeRegion front.length).live =
      slots (shiftDown (fun i => (fa.regions i, fa.lowCursor i)) front.length
        (fa.regionCount - 1 - front.length)) (fa.regionCount - 1) := by
    refine live_eq fun j => ?_
    simp only [removeRegion, shiftDown_apply]
    split_ifs <;> rfl
  rw [paired, erased, ← live, h, eraseIdx_append_of_length_le le_rfl]
  simp

theorem live_setRegion (r : MemRegion) : (fa.setRegion front.length r).live = front ++ (r, e.2) :: rest := by
  have cursor : fa.lowCursor front.length = e.2 := congrArg Prod.snd (live_at h).2
  have paired : (fa.setRegion front.length r).live =
      slots (update (fun i => (fa.regions i, fa.lowCursor i)) front.length (r, e.2)) fa.regionCount := by
    refine live_eq fun j => ?_
    simp only [setRegion, update_apply]
    split_ifs with same
    · rw [same, cursor]
    · rfl
  rw [paired, slots_update, ← live, h, set_append_right _ _ le_rfl]
  simp

theorem live_insertAfter (r : MemRegion) (cursor : Nat) :
    (fa.insertAfter front.length r cursor).live = front ++ e :: (r, cursor) :: rest := by
  have inside := (live_at h).1
  have inserted := slots_shiftUp (fun i => (fa.regions i, fa.lowCursor i)) (r, cursor) inside
  have paired : (fa.insertAfter front.length r cursor).live =
      slots (update (shiftUp (fun i => (fa.regions i, fa.lowCursor i)) front.length
        (fa.regionCount - 1 - front.length)) (front.length + 1) (r, cursor)) (fa.regionCount + 1) := by
    refine live_eq fun j => ?_
    simp only [insertAfter, update_apply, shiftUp_apply]
    split_ifs <;> rfl
  have after := insertIdx_append_length (front ++ [e]) rest (r, cursor)
  rw [paired, inserted, ← live, h]
  simpa using after

end

/-! ## The list form of the loop -/

def Misses (base endAddr : Nat) (r : MemRegion) : Prop := endAddr ≤ r.base ∨ base ≥ r.endAddr

instance (base endAddr : Nat) (r : MemRegion) : Decidable (Misses base endAddr r) :=
  inferInstanceAs (Decidable (_ ∨ _))

/-- What the loop makes of the live entries; `room` is the number of unused
    slots, and a split without room drops the upper part. -/
def carve (base endAddr : Nat) : Nat → List Entry → List Entry
  | _, [] => []
  | room, (r, c) :: rest =>
    if Misses base endAddr r then (r, c) :: carve base endAddr room rest
    else if base ≤ r.base ∧ endAddr ≥ r.endAddr then carve base endAddr (room + 1) rest
    else if base ≤ r.base then
      (⟨endAddr, r.endAddr - endAddr⟩, c) :: carve base endAddr room rest
    else if endAddr ≥ r.endAddr then
      (⟨r.base, base - r.base⟩, c) :: carve base endAddr room rest
    else if 0 < room then
      (⟨r.base, base - r.base⟩, c) :: (⟨endAddr, r.endAddr - endAddr⟩, max c endAddr) ::
        carve base endAddr (room - 1) rest
    else (⟨r.base, base - r.base⟩, c) :: carve base endAddr room rest

/-- Iterations the loop still needs: an entry that is split is visited twice. -/
def cost (base endAddr : Nat) : List Entry → Nat
  | [] => 0
  | e :: rest => (if Misses base endAddr e.1 then 1 else 2) + cost base endAddr rest

theorem cost_le (base endAddr : Nat) (l : List Entry) : cost base endAddr l ≤ 2 * l.length := by
  induction l with
  | nil => simp [cost]
  | cons e rest ih =>
    simp only [cost, length_cons]
    split <;> omega

/-- With enough iterations the array loop computes `carve` of what it has not
    visited yet. -/
theorem reserveLoop_live (base endAddr : Nat) :
    ∀ (fuel : Nat) (fa : FrameAllocator) (front todo : List Entry),
      fa.live = front ++ todo → fa.regionCount ≤ MAX_REGIONS → cost base endAddr todo ≤ fuel →
      (reserveLoop base endAddr fuel front.length fa).live =
        front ++ carve base endAddr (MAX_REGIONS - fa.regionCount) todo := by
  intro fuel
  induction fuel with
  | zero =>
    intro fa front todo split _ enough
    cases todo with
    | nil => simpa [reserveLoop, carve] using split
    | cons e rest =>
      simp only [cost] at enough
      split_ifs at enough <;> omega
  | succ fuel ih =>
    intro fa front todo split bounded enough
    cases todo with
    | nil =>
      have visited : fa.regionCount = front.length := by
        rw [← live_length, split]; simp
      simpa [reserveLoop, carve, visited] using split
    | cons e rest =>
      obtain ⟨inside, here⟩ := live_at split
      have region : fa.regions front.length = e.1 := congrArg Prod.fst here
      have cursor : fa.lowCursor front.length = e.2 := congrArg Prod.snd here
      -- after an iteration that keeps some entry the visited part has grown by it
      have next : ∀ (fa' : FrameAllocator) (e' : Entry) (rest' : List Entry),
          fa'.live = front ++ e' :: rest' → fa'.regionCount ≤ MAX_REGIONS →
          cost base endAddr rest' ≤ fuel →
          (reserveLoop base endAddr fuel (front.length + 1) fa').live =
            front ++ e' :: carve base endAddr (MAX_REGIONS - fa'.regionCount) rest' := by
        intro fa' e' rest' shape bound paid
        have grown := ih fa' (front ++ [e']) rest' (by simpa using shape) bound paid
        simpa using grown
      simp only [cost] at enough
      simp only [reserveLoop, inside, if_true, reserveStep, region, cursor, carve]
      by_cases miss : Misses base endAddr e.1
      · rw [if_pos miss] at enough
        rw [if_pos miss, if_pos (show _ ∨ _ from miss)]
        exact next fa e rest split bounded (by omega)
      · rw [if_neg miss] at enough
        rw [if_neg miss, if_neg (show ¬ (_ ∨ _) from miss)]
        split_ifs with covered start tail room room' room'
        · have shape := live_removeRegion split
          have fewer : (fa.removeRegion front.length).regionCount = fa.regionCount - 1 := rfl
          rw [ih _ front rest shape (by omega) (by omega), fewer]
          congr 2
          omega
        · exact next _ _ rest (live_setRegion split _) bounded (by omega)
        · exact next _ _ rest (live_setRegion split _) bounded (by omega)
        · -- the split: the upper part is visited next and missed
          have lower := live_setRegion split ⟨e.1.base, base - e.1.base⟩
          have shape := live_insertAfter lower ⟨endAddr, e.1.endAddr - endAddr⟩
            (max e.2 endAddr)
          have upperMisses : Misses base endAddr ⟨endAddr, e.1.endAddr - endAddr⟩ := .inl le_rfl
          have paid : cost base endAddr
              ((⟨endAddr, e.1.endAddr - endAddr⟩, max e.2 endAddr) :: rest) ≤ fuel := by
            simp only [cost, if_pos upperMisses]
            omega
          have counted : (((fa.setRegion front.length ⟨e.1.base, base - e.1.base⟩).insertAfter
              front.length ⟨endAddr, e.1.endAddr - endAddr⟩ (max e.2 endAddr)).regionCount) =
              fa.regionCount + 1 := rfl
          rw [next _ _ _ shape (by omega) paid, counted]
          simp only [carve, if_pos upperMisses]
          congr 4
        · omega
        · omega
        · exact next _ _ rest (live_setRegion split _) bounded (by omega)

theorem reserveLoop_frame (base endAddr : Nat) (fuel : Nat) :
    ∀ (i : Nat) (fa : FrameAllocator), (reserveLoop base endAddr fuel i fa).nextFree = fa.nextFree ∧
        (reserveLoop base endAddr fuel i fa).floor = fa.floor ∧
        (reserveLoop base endAddr fuel i fa).freeStack = fa.freeStack := by
  induction fuel with
  | zero =>
    intro i fa
    exact ⟨rfl, rfl, rfl⟩
  | succ fuel ih =>
    intro i fa
    simp only [reserveLoop]
    split
    · have step : (reserveStep base endAddr fa i).2.nextFree = fa.nextFree ∧
          (reserveStep base endAddr fa i).2.floor = fa.floor ∧
          (reserveStep base endAddr fa i).2.freeStack = fa.freeStack := by
        unfold reserveStep
        dsimp only
        split_ifs <;> exact ⟨rfl, rfl, rfl⟩
      obtain ⟨next, floor, stack⟩ := ih (reserveStep base endAddr fa i).1
        (reserveStep base endAddr fa i).2
      exact ⟨next.trans step.1, floor.trans step.2.1, stack.trans step.2.2⟩
    · exact ⟨rfl, rfl, rfl⟩

/-! ## What carving keeps -/

/-- The region's bounds do not wrap, and its cursor is a page address that does
    not wrap either. -/
structure Sane (e : Entry) : Prop where
  region : e.1.base + e.1.length + PAGE_SIZE_U64 < WORD
  cursor : e.2 + PAGE_SIZE_U64 < WORD
  aligned : PAGE_SIZE_U64 ∣ e.2

theorem Sane.endAddr (sane : Sane e) : e.1.endAddr = e.1.base + e.1.length :=
  wadd_of_lt (by have := sane.region; omega)

def Separate (a b : Entry) : Prop :=
  a.1.base + a.1.length ≤ b.1.base ∨ b.1.base + b.1.length ≤ a.1.base

/-- `e'` describes a part of `e`, with a cursor no lower than its own. -/
structure PartOf (e e' : Entry) : Prop where
  low : e.1.base ≤ e'.1.base
  high : e'.1.base + e'.1.length ≤ e.1.base + e.1.length
  cursor : e.2 ≤ e'.2

theorem PartOf.refl (e : Entry) : PartOf e e := ⟨le_rfl, le_rfl, le_rfl⟩

theorem Separate.parts {a a' b b' : Entry} (h : Separate a b) (ha : PartOf a a')
    (hb : PartOf b b') : Separate a' b' := by
  have := ha.low
  have := ha.high
  have := hb.low
  have := hb.high
  simp only [Separate] at h ⊢
  omega

/-- `e'` is what remains of `e` on one side of the range. -/
structure Piece (lo hi : Nat) (e e' : Entry) : Prop extends PartOf e e' where
  outside : hi ≤ e'.1.base ∨ e'.1.base + e'.1.length ≤ lo
  moved : e'.2 = e.2 ∨ e'.2 = max e.2 hi ∧ e'.1.base = hi

theorem mem_carve {lo hi : Nat} :
    ∀ (room : Nat) {l : List Entry}, (∀ e ∈ l, e.1.base + e.1.length < WORD) →
      e' ∈ carve lo hi room l → ∃ e ∈ l, Piece lo hi e e' := by
  intro room l
  induction l generalizing room with
  | nil => simp [carve]
  | cons e rest ih =>
    intro fits mem
    have end_ : e.1.endAddr = e.1.base + e.1.length := wadd_of_lt (fits e (.head _))
    have later : ∀ room, e' ∈ carve lo hi room rest → ∃ e₀ ∈ e :: rest, Piece lo hi e₀ e' := by
      intro room mem
      obtain ⟨e₀, inRest, piece⟩ := ih room (fun e₀ h => fits e₀ (.tail _ h)) mem
      exact ⟨e₀, .tail _ inRest, piece⟩
    have first : ∀ {e₁ : Entry} {l : List Entry}, e' ∈ e₁ :: l → Piece lo hi e e₁ →
        (e' ∈ l → ∃ e₀ ∈ e :: rest, Piece lo hi e₀ e') → ∃ e₀ ∈ e :: rest, Piece lo hi e₀ e' := by
      intro e₁ l mem piece others
      rcases mem with _ | ⟨_, mem⟩
      · exact ⟨e, .head _, piece⟩
      · exact others mem
    simp only [carve] at mem
    split_ifs at mem with miss covered start tail room'
    all_goals simp only [Misses, not_or, not_le, ge_iff_le, end_, not_and] at *
    · exact first mem ⟨PartOf.refl e, by omega, .inl rfl⟩ (later _)
    · exact later _ mem
    · exact first mem ⟨⟨by dsimp only; omega, by dsimp only; omega, le_rfl⟩, .inl le_rfl, .inl rfl⟩ (later _)
    · exact first mem ⟨⟨le_rfl, by dsimp only; omega, le_rfl⟩, by dsimp only; omega, .inl rfl⟩ (later _)
    · refine first mem ⟨⟨le_rfl, by dsimp only; omega, le_rfl⟩, by dsimp only; omega, .inl rfl⟩ fun mem => ?_
      exact first mem ⟨⟨by dsimp only; omega, by dsimp only; omega, le_max_left _ _⟩, .inl le_rfl,
        .inr ⟨rfl, rfl⟩⟩ (later _)
    · exact first mem ⟨⟨le_rfl, by dsimp only; omega, le_rfl⟩, by dsimp only; omega, .inl rfl⟩ (later _)

theorem carve_sane {base endAddr : Nat} (page : PAGE_SIZE_U64 ∣ endAddr) (room : Nat) {l : List Entry}
    (sane : ∀ e ∈ l, Sane e) : ∀ e' ∈ carve base endAddr room l, Sane e' ∧ ∃ e ∈ l, PartOf e e' := by
  intro e' mem
  obtain ⟨e, old, piece⟩ := mem_carve room (fun e mem => by have := (sane e mem).region; omega) mem
  have region := (sane e old).region
  have high := piece.high
  refine ⟨⟨by omega, ?_, ?_⟩, e, old, piece.toPartOf⟩
  all_goals rcases piece.moved with same | ⟨same, start⟩ <;> rw [same]
  · exact (sane e old).cursor
  · have := (sane e old).cursor
    omega
  · exact (sane e old).aligned
  · rcases max_choice e.2 endAddr with pick | pick <;> rw [pick]
    · exact (sane e old).aligned
    · exact page

theorem carve_separate {base endAddr : Nat} (page : PAGE_SIZE_U64 ∣ endAddr)
    (range : endAddr = 0 ∨ base ≤ endAddr) :
    ∀ (room : Nat) {l : List Entry}, (∀ e ∈ l, Sane e) → l.Pairwise Separate →
      (carve base endAddr room l).Pairwise Separate := by
  intro room l
  induction l generalizing room with
  | nil =>
    intro _ _
    simp [carve]
  | cons e rest ih =>
    intro sane apart
    have here := sane e (.head _)
    have end_ := here.endAddr
    have restSane : ∀ e₀ ∈ rest, Sane e₀ := fun e₀ h => sane e₀ (.tail _ h)
    obtain ⟨apartHead, apartRest⟩ := pairwise_cons.mp apart
    -- a part of `e` stays clear of everything carved from the rest
    have clear : ∀ {e' : Entry} room, PartOf e e' →
        ∀ y ∈ carve base endAddr room rest, Separate e' y := by
      intro e' room part y mem
      obtain ⟨_, e₀, inRest, part₀⟩ := carve_sane page room restSane y mem
      exact (apartHead e₀ inRest).parts part part₀
    have keep : ∀ {e' : Entry} room, PartOf e e' →
        (e' :: carve base endAddr room rest).Pairwise Separate := by
      intro e' room part
      exact pairwise_cons.mpr ⟨clear room part, ih room restSane apartRest⟩
    simp only [carve]
    split_ifs with miss covered start tail room'
    · exact keep room (PartOf.refl e)
    · exact ih _ restSane apartRest
    all_goals simp only [Misses, not_or, not_le, ge_iff_le, end_, not_and] at *
    · exact keep room ⟨by dsimp only; omega, by dsimp only; omega, le_rfl⟩
    · exact keep room ⟨le_rfl, by dsimp only; omega, le_rfl⟩
    · have lower : PartOf e (⟨e.1.base, base - e.1.base⟩, e.2) :=
        ⟨le_rfl, by dsimp only; omega, le_rfl⟩
      have upper : PartOf e
          (⟨endAddr, e.1.base + e.1.length - endAddr⟩, max e.2 endAddr) :=
        ⟨by dsimp only; omega, by dsimp only; omega, le_max_left _ _⟩
      refine pairwise_cons.mpr ⟨?_, keep _ upper⟩
      intro y mem
      rcases mem_cons.mp mem with same | mem
      · subst same
        simp only [Separate]
        omega
      · exact clear _ lower y mem
    · exact keep room ⟨le_rfl, by dsimp only; omega, le_rfl⟩

theorem carve_length (base endAddr : Nat) (l : List Entry) :
    ∀ room, (carve base endAddr room l).length ≤ l.length + room := by
  induction l with
  | nil => simp [carve]
  | cons e rest ih =>
    intro room
    simp only [carve]
    split_ifs
    all_goals simp only [length_cons]
    · have := ih room; omega
    · have := ih (room + 1); omega
    · have := ih room; omega
    · have := ih room; omega
    · have := ih (room - 1); omega
    · have := ih room; omega

theorem reserveEnd_spec (base length : Nat) :
    PAGE_SIZE_U64 ∣ reserveEnd base length ∧ reserveEnd base length + PAGE_SIZE_U64 ≤ WORD ∧
      (reserveEnd base length = 0 ∨ pageDown base ≤ reserveEnd base length) := by
  have word := WORD_eq
  have page : PAGE_SIZE_U64 = 4096 := rfl
  have low : pageDown base = base % WORD / 4096 * 4096 := and_bnot_mask_mod base (k := 12) (by decide)
  have small : base % WORD < WORD := mod_lt _ (by decide)
  have value : reserveEnd base length =
      wsub (wadd (satAdd (pageDown base) length) PAGE_SIZE_U64) 1 / 4096 * 4096 :=
    and_bnot_mask (k := 12) (wsub_lt _ _) (by decide)
  have sum : pageDown base ≤ satAdd (pageDown base) length ∧ satAdd (pageDown base) length < WORD := by
    simp only [satAdd]
    omega
  have bound := wsub_lt (wadd (satAdd (pageDown base) length) PAGE_SIZE_U64) 1
  rw [value]
  refine ⟨dvd_mul_left _ _, by omega, ?_⟩
  generalize satAdd (pageDown base) length = total at sum bound ⊢
  by_cases wraps : total + 4096 < WORD
  · rw [wadd_of_lt (by omega), wsub_of_le (by omega) (by omega)]
    omega
  · have wrapped : wadd total PAGE_SIZE_U64 = total + 4096 - WORD := by
      rw [wadd, PAGE_SIZE_U64, mod_eq_sub_mod (by omega), mod_eq_of_lt (by omega)]
    rw [wrapped]
    by_cases top : total + 4096 = WORD
    · have last : wsub (total + 4096 - WORD) 1 = WORD - 1 := by
        rw [top, Nat.sub_self]
        decide
      omega
    · rw [wsub_of_le (by omega) (by omega)]
      omega

end Zenus.Mem.FrameAllocator
