import Zenus.Mem.HeapInv

/-! # Deallocation

The insertion point found by `find_slot` splits the list around the block given
back.  Whichever of its neighbours it touches, the list that results covers what
the old one covered and the extent of the block, and is in normal form again.
-/

namespace Zenus.Mem.FreeListAllocator

open Lib.Word Lib.Links Lib.Extents List Block List.Sublist Set

variable {A : Arena} {s t s' : FreeListAllocator} {free pre post post' live l₁ l₂ free' : List Block}
  {b p n x a c : Block}

/-! ## Giving an extent back -/

theorem Inv.clear_used (inv : Inv A s free (l₁ ++ b :: l₂)) :
    (∀ c ∈ free, b.Clear c) ∧ (∀ c ∈ l₁ ++ l₂, b.Clear c) := by
  constructor
  · intro c mem
    exact (inv.clear_live mem (mem_append_right _ (.head _))).symm
  · obtain ⟨_, right, cross⟩ := pairwise_append.mp inv.liveApart
    intro c mem
    rcases mem_append.mp mem with mem | mem
    · exact clear_of_disjoint (cross c mem b (.head _))
    · exact clear_of_disjoint ((pairwise_cons.mp right).1 c mem).symm

/-- After the block is given back the list covers its extent as well. -/
structure GivenBack (A : Arena) (s : FreeListAllocator) (free free' : List Block) (b : Block) (live : List Block) :
    Prop where
  inv : Inv A s free' live
  covers : cover (free'.map Block.extent) = cover (free.map Block.extent) ∪ b.extent.range

theorem Inv.freed (inv : Inv A s free (l₁ ++ b :: l₂))
    (ready : s'.initialized = true) (linked : Linked 0 s'.next 0 (free'.map addr))
    (freeHdr : ∀ c ∈ free', s'.IsFree c) (agree : ∀ c ∈ l₁ ++ l₂, s'.header c.addr = s.header c.addr)
    (normal : Normal (free'.map extent)) (placed : ∀ c ∈ free', Placed A c)
    (covers : cover (free'.map extent) = cover (free.map extent) ∪ b.extent.range) :
    GivenBack A s' free free' b (l₁ ++ l₂) := by
  have sub : (l₁ ++ l₂).Sublist (l₁ ++ b :: l₂) :=
    (refl l₁).append (sublist_cons_self b l₂)
  refine ⟨⟨ready, linked, freeHdr, ?_, normal, inv.liveApart.sublist sub, ?_, ?_⟩, covers⟩
  · exact fun c mem => (inv.usedHdr c (sub.subset mem)).congr (agree c mem)
  · rw [covers]
    refine disjoint_union_left.mpr ⟨inv.apart.mono_right (cover_subset ?_), ?_⟩
    · exact fun c mem => range_subset_cover (mem_map_of_mem (sub.subset mem))
    · refine (disjoint_cover ?_).symm
      intro c mem
      have := inv.clear_used.2 c mem
      simp only [Block.Clear, extent, Extent.range, Set.Ico_disjoint_Ico] at this ⊢
      omega
  · refine forall_mem_append.mpr ⟨placed, fun c mem => ?_⟩
    exact inv.placed c (mem_append_right _ (sub.subset mem))

theorem forall_replaced {prop : Block → Prop} (sub : ∀ c ∈ post', c ∈ post)
    (outer : ∀ c ∈ pre ++ post, prop c) (new : prop x) : ∀ c ∈ pre ++ x :: post', prop c := by
  refine forall_between (fun c mem => outer c ?_) (forall_mem_singleton.mpr new)
  exact mem_append.mpr ((mem_append.mp mem).imp_right (sub c))

section

variable {q a : Nat} (head : t.freeHead = s.freeHead) (sub : ∀ c ∈ post', c ∈ post)
  (tail : Linked 0 s.next q (post'.map Block.addr))

include head sub tail

theorem Inv.linked_insert (inv : Inv A s (pre ++ post) live)
    (agree : ∀ c ∈ pre ++ post, t.header c.addr = s.header c.addr) (nonzero : a ≠ 0)
    (far : ∀ c ∈ pre ++ post, Far c.addr a) (after : (t.header a).next = s.next q) :
    Linked 0 (t.setLink (lastAddr pre) a).next 0
      (pre.map addr ++ a :: post'.map addr) := by
  refine inv.relink head (fun c mem => agree c (mem_append_left _ mem)) ?_
  refine ⟨next_setLink_self _ _, nonzero, tail.shift ?_ ?_⟩
  · rw [next, if_neg nonzero, setLink_far _ (far_lastAddr fun p before => ?_), after]
    exact symm (far p (mem_append_left _ before))
  · exact forall_mem_map.mpr fun c here =>
      inv.setLink_next (sub c here) head (agree c (mem_append_right _ (sub c here)))

theorem Inv.linked_grow (inv : Inv A s (pre ++ p :: post) live)
    (agree : ∀ c ∈ pre ++ post, t.header c.addr = s.header c.addr) (after : (t.header p.addr).next = s.next q) :
    Linked 0 t.next 0 (pre.map addr ++ p.addr :: post'.map addr) := by
  have nonzero : p.addr ≠ 0 :=
    inv.addr_pos (mem_append_left _ (mem_append_right _ (.head _)))
  have linked := inv.linked
  have distinct := inv.distinct
  rw [map_append, map_cons] at linked distinct
  refine linked.relink (distinct.sublist ((sublist_append_left _ _).cons_cons 0)) ?_
    ⟨?_, nonzero, tail.shift ?_ ?_⟩
  · intro m mem _
    refine next_congr head fun some => ?_
    obtain ⟨c, here, rfl⟩ := mem_map.mp ((mem_cons.mp mem).resolve_left some)
    exact agree c (mem_append_left _ here)
  · refine (next_congr head (lastAddr_rule (P := fun a => t.header a = s.header a) fun c here => ?_)).trans
      linked.suffix.1
    exact agree c (mem_append_left _ here)
  · rw [next, if_neg nonzero, after]
  · exact forall_mem_map.mpr fun c here =>
      next_congr head fun _ => agree c (mem_append_right _ (sub c here))

variable {size : Nat} (ready : t.initialized = s.initialized)
  (agree : ∀ c ∈ pre ++ post ++ (l₁ ++ l₂), t.header c.addr = s.header c.addr)

include ready agree

theorem Inv.giveNode (inv : Inv A s (pre ++ post) (l₁ ++ b :: l₂))
    (stored : t.header b.addr = ⟨MAGIC_FREE, size, s.next q, CANARY_VALUE⟩)
    (normal : Normal ((pre ++ ⟨b.addr, size⟩ :: post').map extent)) (place : Placed A ⟨b.addr, size⟩)
    (covers : cover ((pre ++ ⟨b.addr, size⟩ :: post').map extent) =
      cover ((pre ++ post).map extent) ∪ b.extent.range) :
    GivenBack A (t.setLink (lastAddr pre) b.addr) (pre ++ post)
      (pre ++ ⟨b.addr, size⟩ :: post') b (l₁ ++ l₂) := by
  obtain ⟨clearFree, clearLive⟩ := inv.clear_used
  have mine : b ∈ pre ++ post ++ (l₁ ++ b :: l₂) := by simp
  have agreeFree : ∀ c ∈ pre ++ post, t.header c.addr = s.header c.addr :=
    fun c mem => agree c (mem_append_left _ mem)
  have self : (t.setLink (lastAddr pre) b.addr).header b.addr =
      ⟨MAGIC_FREE, size, s.next q, CANARY_VALUE⟩ := by
    rw [setLink_far _ (far_lastAddr fun c mem => ?_), stored]
    exact symm (clearFree c (mem_append_left _ mem)).far
  refine inv.freed ?_ ?_ ?_ ?_ normal ?_ covers
  · rw [← inv.ready, ← ready]
    unfold setLink
    split_ifs <;> rfl
  · rw [map_append, map_cons]
    exact inv.linked_insert head sub tail agreeFree (inv.addr_pos mine)
      (fun c mem => (clearFree c mem).far) (by rw [stored])
  · exact forall_replaced sub (fun c mem => inv.setLink_free mem (agreeFree c mem))
      ⟨by rw [self], by rw [self], by rw [self]⟩
  · intro c mem
    refine (setLink_far _ (far_lastAddr fun d before => ?_)).trans (agree c (mem_append_right _ mem))
    exact (inv.clear_live (mem_append_left _ before) (subset (by simp) mem)).far
  · exact forall_replaced sub (fun c mem => inv.placed c (mem_append_left _ mem)) place

theorem Inv.growNode (inv : Inv A s (pre ++ p :: post) (l₁ ++ b :: l₂))
    (stored : t.header p.addr = ⟨MAGIC_FREE, size, s.next q, CANARY_VALUE⟩)
    (normal : Normal ((pre ++ ⟨p.addr, size⟩ :: post').map extent)) (place : Placed A ⟨p.addr, size⟩)
    (covers : cover ((pre ++ ⟨p.addr, size⟩ :: post').map extent) =
      cover ((pre ++ p :: post).map extent) ∪ b.extent.range) :
    GivenBack A t (pre ++ p :: post) (pre ++ ⟨p.addr, size⟩ :: post') b (l₁ ++ l₂) := by
  have agreeFree : ∀ c ∈ pre ++ post, t.header c.addr = s.header c.addr :=
    fun c mem => agree c (mem_append_left _ mem)
  have inList : ∀ c ∈ pre ++ post, c ∈ pre ++ p :: post := fun c mem =>
    ((refl pre).append (sublist_cons_self p post)).subset mem
  refine inv.freed (ready.trans inv.ready) ?_ ?_ ?_ normal ?_ covers
  · rw [map_append, map_cons]
    exact inv.linked_grow (p := p) head sub tail agreeFree (by rw [stored])
  · exact forall_replaced sub (fun c mem => (inv.freeHdr c (inList c mem)).congr (agreeFree c mem))
      ⟨by rw [stored], by rw [stored], by rw [stored]⟩
  · exact fun c mem => agree c (mem_append_right _ mem)
  · exact forall_replaced sub (fun c mem => inv.placed c (mem_append_left _ (inList c mem))) place

end

/-! ## The four cases -/

/-- Two blocks, the second starting where the first ends. -/
def Touch (a b : Block) : Prop := a.addr + HEADER_SIZE + a.size = b.addr

/-- The block that results from merging a block with the one it touches. -/
def merge (a b : Block) : Block := ⟨a.addr, a.size + HEADER_SIZE + b.size⟩

theorem merge_range (touch : Touch a b) : (merge a b).extent.range = a.extent.range ∪ b.extent.range := by
  have joined := range_union_of_adjacent a.extent_pos.le b.extent_pos.le touch
  rw [← joined]
  simp only [Touch] at touch
  simp only [merge, extent, Extent.range]
  congr 1
  omega

theorem merge_hi (touch : Touch a b) : (merge a b).extent.hi = b.extent.hi := by
  simp only [Touch, merge, extent] at touch ⊢
  omega

theorem wadd_merge (touch : Touch a b) (small : b.addr + HEADER_SIZE + b.size + 2 * HEADER_SIZE < WORD) :
    wadd a.size (wadd HEADER_SIZE b.size) = (merge a b).size := by
  simp only [Touch] at touch
  rw [wadd_of_lt (a := HEADER_SIZE) (by omega), wadd_of_lt (by omega), merge, Nat.add_assoc]

theorem merge_placed (touch : Touch a b) (ha : Placed A a) (hb : Placed A b) : Placed A (merge a b) := by
  have a16 := ha.size16
  have b16 := hb.size16
  have high := hb.high
  have wide : HEADER_SIZE = 32 := rfl
  simp only [Touch] at touch
  refine ⟨ha.addr16, ?_, ha.low, ?_⟩
  · simp only [merge]
    omega
  · simp only [merge]
    omega

/-- Either the last block before the insertion point is touched, or there is a
    gap after all of them. -/
theorem touch_prev (normal : Normal (pre.map extent))
    (before : ∀ a ∈ pre, a.addr + HEADER_SIZE + a.size ≤ b.addr) :
    (∃ pre' p, pre = pre' ++ [p] ∧ Touch p b) ∨ ∀ a ∈ pre, a.extent.hi < b.extent.lo := by
  rcases eq_nil_or_concat pre with rfl | ⟨pre', p, rfl⟩
  · exact .inr (by simp)
  · rw [concat_eq_append] at before normal ⊢
    by_cases touch : Touch p b
    · exact .inl ⟨pre', p, rfl, touch⟩
    · refine .inr ?_
      have last := before p (by simp)
      rw [map_append] at normal
      intro a mem
      simp only [Touch] at touch
      simp only [extent]
      rcases mem_append.mp mem with mem | mem
      · have := normal.around.1 _ (mem_map_of_mem mem)
        simp only [extent] at this
        omega
      · cases mem_singleton.mp mem
        omega

theorem touch_next (normal : Normal (post.map extent))
    (after : ∀ c ∈ post, b.addr + HEADER_SIZE + b.size ≤ c.addr) :
    (∃ n post', post = n :: post' ∧ Touch b n) ∨ ∀ c ∈ post, b.extent.hi < c.extent.lo := by
  cases post with
  | nil => exact .inr (by simp)
  | cons n post' =>
    by_cases touch : Touch b n
    · exact .inl ⟨n, post', rfl, touch⟩
    · refine .inr ?_
      have first := after n (.head _)
      have gap := (pairwise_cons.mp normal.gaps).1
      intro c mem
      simp only [Touch] at touch
      simp only [extent]
      rcases mem with _ | ⟨_, mem⟩
      · omega
      · have := gap _ (mem_map_of_mem mem)
        simp only [extent] at this
        omega

theorem Inv.poke_other (inv : Inv A s (pre ++ p :: post) (l₁ ++ b :: l₂)) (t : FreeListAllocator) {x v : Nat}
    (low : p.addr ≤ x) (high : x < p.addr + HEADER_SIZE) :
    ∀ c ∈ pre ++ post ++ (l₁ ++ l₂), (t.poke x v).header c.addr = t.header c.addr := by
  intro c mem
  have clear : p.Clear c := by
    rcases mem_append.mp mem with mem | mem
    · exact inv.clear_free c mem
    · exact inv.clear_live (mem_append_right _ (.head _)) (subset (by simp) mem)
  simp only [Block.Clear] at clear
  exact poke_far _ (by omega)

theorem Inv.poke_used (inv : Inv A s free (l₁ ++ b :: l₂)) (t : FreeListAllocator) {x v : Nat}
    (low : b.addr ≤ x) (high : x < b.addr + HEADER_SIZE) :
    ∀ c ∈ free ++ (l₁ ++ l₂), (t.poke x v).header c.addr = t.header c.addr := by
  intro c mem
  have clear := forall_mem_append.mpr inv.clear_used c mem
  simp only [Block.Clear] at clear
  exact poke_far _ (by omega)

theorem mem_with (mem : c ∈ pre ++ post ++ live) : c ∈ pre ++ p :: post ++ live := by
  simp only [mem_append, mem_cons] at mem ⊢
  tauto

theorem cover_between (pre post : List Block) (x : Block) :
    cover ((pre ++ x :: post).map extent) = cover ((pre ++ post).map extent) ∪ x.extent.range := by
  simp only [map_append, map_cons, cover_append, cover_cons]
  ext y
  simp only [mem_union]
  tauto

theorem Inv.marked (inv : Inv A s free (l₁ ++ b :: l₂)) :
    (s.poke b.addr MAGIC_FREE).header b.addr =
      ⟨MAGIC_FREE, b.size, (s.header b.addr).next, CANARY_VALUE⟩ := by
  have used := inv.usedHdr b (mem_append_right _ (.head _))
  rw [poke_magic, used.size.symm, used.canary.symm]

theorem Inv.marked_prev (inv : Inv A s (pre ++ p :: post) (l₁ ++ b :: l₂)) :
    (s.poke b.addr MAGIC_FREE).header p.addr = ⟨MAGIC_FREE, p.size, s.next p.addr, CANARY_VALUE⟩ := by
  have mine : p ∈ pre ++ p :: post := mem_append_right _ (.head _)
  have free := inv.freeHdr p mine
  rw [inv.poke_used s le_rfl (by simp [HEADER_SIZE]) p (mem_append_left _ mine),
    ← free.magic, ← free.size, ← free.canary, ← inv.header_next mine]

theorem Inv.normal_with (inv : Inv A s free live) (sub : (pre ++ post).Sublist free) (x : Block)
    (before : ∀ a ∈ pre, a.extent.hi < x.extent.lo) (after : ∀ c ∈ post, x.extent.hi < c.extent.lo) :
    Normal ((pre ++ x :: post).map extent) := by
  have rest := inv.normal.sublist (sub.map extent)
  rw [map_append] at rest
  rw [map_append, map_cons]
  exact rest.splice x.extent_pos (forall_mem_map.mpr before) (forall_mem_map.mpr after)

theorem Inv.around (inv : Inv A s (pre ++ p :: post) live) :
    (∀ a ∈ pre, a.extent.hi < p.extent.lo) ∧ (∀ c ∈ post, p.extent.hi < c.extent.lo) := by
  have normal := inv.normal
  rw [map_append, map_cons] at normal
  exact ⟨fun a mem => normal.around.1 _ (mem_map_of_mem mem),
    fun c mem => normal.around.2 _ (mem_map_of_mem mem)⟩

theorem Inv.mergeBoth (inv : Inv A s (pre ++ p :: n :: post) (l₁ ++ b :: l₂)) (left : Touch p b)
    (right : Touch b n) :
    GivenBack A (((s.poke b.addr MAGIC_FREE).poke (p.addr + 8) (merge (merge p b) n).size).poke
      (p.addr + 16) (s.header n.addr).next) (pre ++ p :: n :: post) (pre ++ merge (merge p b) n :: post) b
      (l₁ ++ l₂) := by
  have wide : HEADER_SIZE = 32 := rfl
  have inv' : Inv A s ((pre ++ [p]) ++ n :: post) (l₁ ++ b :: l₂) := by simpa using inv
  have touch : Touch (merge p b) n := by
    simp only [Touch, merge] at left right ⊢
    omega
  refine inv.growNode (by rfl) (fun c mem => .tail _ mem) inv'.linked_after (by rfl) (fun c mem => ?_) ?_ ?_ ?_ ?_
  · rw [inv.poke_other _ (by omega) (by omega) c mem, inv.poke_other _ (by omega) (by omega) c mem,
      inv.poke_used s le_rfl (by omega) c (mem_with mem)]
  · rw [poke_next, poke_size, inv.marked_prev, inv.header_next (by simp)]
    rfl
  · refine inv.normal_with (by simp) (merge (merge p b) n) inv.around.1 ?_
    rw [merge_hi touch]
    exact inv'.around.2
  · have placeP := inv.placed p (by simp)
    have placeB := inv.placed b (by simp)
    exact merge_placed touch (merge_placed left placeP placeB) (inv.placed n (by simp))
  · rw [cover_between, cover_between pre (n :: post), cover_between pre post]
    rw [show Block.mk p.addr _ = merge (merge p b) n from rfl, merge_range touch, merge_range left]
    ext y
    simp only [mem_union]
    tauto

theorem Inv.mergePrev (inv : Inv A s (pre ++ p :: post) (l₁ ++ b :: l₂)) (left : Touch p b)
    (gap : ∀ c ∈ post, b.extent.hi < c.extent.lo) :
    GivenBack A ((s.poke b.addr MAGIC_FREE).poke (p.addr + 8) (merge p b).size)
      (pre ++ p :: post) (pre ++ merge p b :: post) b (l₁ ++ l₂) := by
  have wide : HEADER_SIZE = 32 := rfl
  refine inv.growNode (by rfl) (fun c mem => mem) inv.linked_after (by rfl) (fun c mem => ?_) ?_ ?_ ?_ ?_
  · rw [inv.poke_other _ (by omega) (by omega) c mem, inv.poke_used s le_rfl (by omega) c (mem_with mem)]
  · rw [poke_size, inv.marked_prev]
    rfl
  · refine inv.normal_with (by simp) (merge p b) inv.around.1 ?_
    rw [merge_hi left]
    exact gap
  · exact merge_placed left (inv.placed p (by simp)) (inv.placed b (by simp))
  · rw [cover_between, cover_between pre post p, union_assoc]
    exact congrArg _ (merge_range left)

theorem Inv.mergeNext (inv : Inv A s (pre ++ n :: post) (l₁ ++ b :: l₂)) (right : Touch b n)
    (gap : ∀ a ∈ pre, a.extent.hi < b.extent.lo) :
    GivenBack A ((((s.poke b.addr MAGIC_FREE).poke (b.addr + 8) (merge b n).size).poke
        (b.addr + 16) (s.header n.addr).next).setLink (lastAddr pre) b.addr)
      (pre ++ n :: post) (pre ++ merge b n :: post) b (l₁ ++ l₂) := by
  have wide : HEADER_SIZE = 32 := rfl
  refine inv.giveNode (by rfl) (fun c mem => .tail _ mem) inv.linked_after (by rfl) (fun c mem => ?_) ?_ ?_ ?_ ?_
  · rw [inv.poke_used _ (by omega) (by omega) c mem, inv.poke_used _ (by omega) (by omega) c mem,
      inv.poke_used s le_rfl (by omega) c mem]
  · rw [poke_next, poke_size, inv.marked, inv.header_next (b := n) (by simp)]
    rfl
  · refine inv.normal_with (by simp) (merge b n) gap ?_
    rw [merge_hi right]
    exact inv.around.2
  · exact merge_placed right (inv.placed b (by simp)) (inv.placed n (by simp))
  · rw [cover_between, cover_between pre post n, union_assoc, union_comm n.extent.range]
    exact congrArg _ (merge_range right)

theorem Inv.insertBlock (inv : Inv A s (pre ++ post) (l₁ ++ b :: l₂))
    (before : ∀ a ∈ pre, a.extent.hi < b.extent.lo) (after : ∀ c ∈ post, b.extent.hi < c.extent.lo) :
    GivenBack A (((s.poke b.addr MAGIC_FREE).poke (b.addr + 16)
        (s.next (lastAddr pre))).setLink (lastAddr pre) b.addr)
      (pre ++ post) (pre ++ b :: post) b (l₁ ++ l₂) := by
  have wide : HEADER_SIZE = 32 := rfl
  have linked := inv.linked
  rw [map_append] at linked
  refine inv.giveNode (by rfl) (fun c mem => mem) linked.suffix (by rfl) (fun c mem => ?_) ?_ ?_
    (inv.placed b (by simp)) (cover_between pre post b)
  · rw [inv.poke_used _ (by omega) (by omega) c mem, inv.poke_used s le_rfl (by omega) c mem]
  · rw [poke_next, inv.marked]
  · exact inv.normal_with (refl _) b before after

/-! ## The whole call -/

theorem Inv.prev_end (inv : Inv A s (pre ++ p :: post) (l₁ ++ b :: l₂)) :
    p.addr ≠ 0 ∧ (if p.addr ≠ 0 then
        wadd (wadd p.addr HEADER_SIZE) ((s.poke b.addr MAGIC_FREE).header p.addr).size else 0) =
      p.addr + HEADER_SIZE + p.size := by
  have nonzero : p.addr ≠ 0 := inv.addr_pos (by simp)
  have small := (inv.placed p (by simp)).small
  refine ⟨nonzero, ?_⟩
  rw [if_pos nonzero, inv.marked_prev, wadd_of_lt (b := HEADER_SIZE) (by omega),
    wadd_of_lt (by dsimp only; omega)]

section

variable (inv : Inv A s (pre ++ post) (l₁ ++ b :: l₂))

include inv

theorem Inv.not_touch_prev (gap : ∀ a ∈ pre, a.extent.hi < b.extent.lo) :
    ¬ (lastAddr pre ≠ 0 ∧ (if lastAddr pre ≠ 0 then
        wadd (wadd (lastAddr pre) HEADER_SIZE)
          ((s.poke b.addr MAGIC_FREE).header (lastAddr pre)).size else 0) =
      b.addr) := by
  rintro ⟨some, eq⟩
  obtain ⟨p, mem, here⟩ := lastAddr_rule (P := fun a => ∃ p ∈ pre, p.addr = a) (fun p mem => ⟨p, mem, rfl⟩) some
  obtain ⟨before, after, rfl⟩ := append_of_mem mem
  rw [append_assoc, cons_append] at inv
  rw [← here, inv.prev_end.2] at eq
  exact absurd eq (gap p mem).ne

theorem Inv.not_touch_next (gap : ∀ c ∈ post, b.extent.hi < c.extent.lo) :
    ¬ (s.next (lastAddr pre) ≠ 0 ∧ b.addr + HEADER_SIZE + b.size = s.next (lastAddr pre)) := by
  rintro ⟨some, eq⟩
  have linked := inv.linked
  rw [map_append] at linked
  cases post with
  | nil => exact some linked.suffix
  | cons n post' =>
    rw [linked.suffix.1] at eq
    exact absurd eq (gap n (.head _)).ne

theorem Inv.coalesce (before : ∀ a ∈ pre, a.addr + HEADER_SIZE + a.size ≤ b.addr)
    (after : ∀ c ∈ post, b.addr + HEADER_SIZE + b.size ≤ c.addr) :
    ∃ free', GivenBack A ((s.poke b.addr MAGIC_FREE).coalesce b.addr b.size (lastAddr pre)
      (s.next (lastAddr pre))) (pre ++ post) free' b (l₁ ++ l₂) := by
  have wide : HEADER_SIZE = 32 := rfl
  have smallB := (inv.placed b (by simp)).small
  have blockEnd : wadd (wadd b.addr HEADER_SIZE) b.size = b.addr + HEADER_SIZE + b.size := by
    rw [wadd_of_lt (b := HEADER_SIZE) (by omega), wadd_of_lt (by omega)]
  have normal := inv.normal
  have linked := inv.linked
  rw [map_append] at normal linked
  have follow : Linked 0 s.next (lastAddr pre) (post.map addr) := linked.suffix
  unfold FreeListAllocator.coalesce
  rw [blockEnd]
  rcases touch_prev (normal.sublist (sublist_append_left _ _)) before with
    ⟨pre', p, rfl, left⟩ | gapBefore
  · rw [append_assoc, singleton_append] at inv ⊢
    have last : lastAddr (pre' ++ [p]) = p.addr := by simp [lastAddr]
    rw [last] at follow ⊢
    have endP := inv.prev_end
    have touched : p.addr ≠ 0 ∧ (if p.addr ≠ 0 then wadd (wadd p.addr HEADER_SIZE)
        ((s.poke b.addr MAGIC_FREE).header p.addr).size else 0) = b.addr := ⟨endP.1, endP.2.trans left⟩
    have sizeP : ((s.poke b.addr MAGIC_FREE).header p.addr).size = p.size := by rw [inv.marked_prev]
    rcases touch_next (normal.sublist (sublist_append_right _ _)) after with
      ⟨n, post', rfl, right⟩ | gapAfter
    · have smallN := (inv.placed n (by simp)).small
      have sizeN := (inv.freeHdr n (by simp)).size
      have keptN := inv.poke_used s (v := MAGIC_FREE) le_rfl (by omega) n (by simp)
      have total : wadd p.size (wadd (wadd (wadd HEADER_SIZE b.size) HEADER_SIZE) n.size) =
          (merge (merge p b) n).size := by
        simp only [Touch] at left right
        rw [wadd_of_lt (a := HEADER_SIZE) (by omega), wadd_of_lt (b := HEADER_SIZE) (by omega),
          wadd_of_lt (b := n.size) (by omega), wadd_of_lt (by omega)]
        simp only [merge]
        omega
      rw [follow.1, if_pos ⟨touched, follow.2.1, right⟩, keptN, sizeP, sizeN, total]
      exact ⟨_, inv.mergeBoth left right⟩
    · have apart : ¬ (s.next p.addr ≠ 0 ∧ b.addr + HEADER_SIZE + b.size = s.next p.addr) := by
        have inv' : Inv A s ((pre' ++ [p]) ++ post) (l₁ ++ b :: l₂) := by simpa using inv
        exact last ▸ inv'.not_touch_next gapAfter
      rw [if_neg (fun both => apart both.2), if_pos touched, sizeP, wadd_merge left smallB]
      exact ⟨_, inv.mergePrev left gapAfter⟩
  · have apart := inv.not_touch_prev gapBefore
    rw [if_neg (fun both => apart both.1), if_neg apart]
    rcases touch_next (normal.sublist (sublist_append_right _ _)) after with
      ⟨n, post', rfl, right⟩ | gapAfter
    · have smallN := (inv.placed n (by simp)).small
      have sizeN := (inv.freeHdr n (by simp)).size
      have keptN := inv.poke_used s (v := MAGIC_FREE) le_rfl (by omega) n (by simp)
      rw [follow.1, if_pos ⟨follow.2.1, right⟩, keptN, sizeN, inv.marked, wadd_merge right smallN]
      exact ⟨_, inv.mergeNext right gapBefore⟩
    · rw [if_neg (inv.not_touch_next gapAfter)]
      exact ⟨_, inv.insertBlock gapBefore gapAfter⟩

end

theorem Inv.above (inv : Inv A s (pre ++ post) live) {x : Nat} (first : ∀ n ∈ post.head?, x < n.addr) :
    ∀ c ∈ post, x < c.addr := by
  cases post with
  | nil => simp
  | cons n post' =>
    have low : x < n.addr := first n rfl
    intro c mem
    rcases mem with _ | ⟨_, mem⟩
    · exact low
    · have := inv.around.2 c mem
      simp only [extent] at this
      omega

/-- `dealloc_mut` of a live block returns, takes the block off the live blocks,
    and adds its extent to what the free list covers. -/
theorem Inv.deallocMut (inv : Inv A s free (l₁ ++ b :: l₂)) :
    ∃ s' free', s.deallocMut A (b.addr + HEADER_SIZE) = some s' ∧ Inv A s' free' (l₁ ++ l₂) ∧
      cover (free'.map extent) = cover (free.map extent) ∪ b.extent.range := by
  have wide : HEADER_SIZE = 32 := rfl
  have mine : b ∈ l₁ ++ b :: l₂ := by simp
  have small := (inv.placed b (mem_append_right _ mine)).small
  have inv := inv.checked "dealloc"
  unfold FreeListAllocator.deallocMut
  generalize (s.ensureInitialized A).debugCheckFreeList A "dealloc" = s at inv ⊢
  have used := inv.usedHdr b mine
  have block : wsub (b.addr + HEADER_SIZE) HEADER_SIZE = b.addr := by
    rw [wsub_of_le (by omega) (by omega)]
    omega
  have linked : Linked 0 (s.poke b.addr MAGIC_FREE).next 0 (free.map addr) := by
    refine inv.linked.shift (next_congr rfl fun zero => absurd rfl zero) ?_
    intro n mem
    obtain ⟨c, here, rfl⟩ := mem_map.mp mem
    exact next_congr rfl fun _ =>
      inv.poke_used s le_rfl (by omega) c (mem_append_left _ here)
  obtain ⟨pre, post, rfl, before, first, found⟩ :=
    findSlot_spec b.addr linked inv.length_lt
  have clear := inv.clear_used.1
  have above := inv.above first
  obtain ⟨free', back⟩ := Inv.coalesce inv
    (by
      intro a mem
      have apart := clear a (mem_append_left _ mem)
      have low := before a mem
      simp only [Block.Clear] at apart
      omega)
    (by
      intro c mem
      have apart := clear c (mem_append_right _ mem)
      have high := above c mem
      simp only [Block.Clear] at apart
      omega)
  refine ⟨_, free', ?_, back.inv, back.covers⟩
  dsimp only
  rw [block, if_neg (by omega), used.magic, if_neg (by decide), if_neg (by simp [used.canary])]
  have head : (s.poke b.addr MAGIC_FREE).freeHead = (s.poke b.addr MAGIC_FREE).next 0 := rfl
  rw [head, found, used.size, Option.map_some]
  have same : (s.poke b.addr MAGIC_FREE).next (lastAddr pre) = s.next (lastAddr pre) := by
    refine next_congr rfl (lastAddr_rule (P := fun a => (s.poke b.addr MAGIC_FREE).header a = s.header a) ?_)
    exact fun c here => inv.poke_used s le_rfl (by omega) c (by simp [here])
  rw [same]

end Zenus.Mem.FreeListAllocator
