import Zenus.Fs.Tmpfs
import Zenus.Lib.Links
import Zenus.Lib.Run
import Mathlib.Data.Fintype.Card

/-! # The tree of the in-memory file system

The child lists of all directories are threaded through one table.  A place where
a link is stored is either the head of a directory's list or the link of a node to
its next sibling, and both kinds are followed by the same successor function.

A directory is created before its entries, so a node's parent has a smaller slot;
that is what makes every node reachable from the root.
-/

namespace Zenus.Fs.TmpfsTree

open Lib.Links TmpFs Function List TmpNode Sum Nat

/-- A link: the head of a directory's list, or the one to the next sibling. -/
abbrev Link := Slot ⊕ Slot

def next (nodes : Slot → TmpNode) : Link → Link
  | .inl d => .inr (nodes d).firstChild
  | .inr c => .inr (nodes c).nextSibling

/-- Following `first_child` and `next_sibling` from `d` meets exactly `cs`, and ends. -/
def Walk (nodes : Slot → TmpNode) (d : Slot) (cs : List Slot) : Prop :=
  Linked (.inr 0) (next nodes) (.inl d) (cs.map .inr)

inductive Reachable (nodes : Slot → TmpNode) : Slot → Prop where
  | root : Reachable nodes 0
  | child {d c : Slot} {cs : List Slot} : Reachable nodes d → Walk nodes d cs → c ∈ cs → Reachable nodes c

section Loops

variable {nodes : Slot → TmpNode} {name : Str} {cs : List Slot} {rounds : Nat} {link : Link}
  {prev child d : Slot}

theorem length_lt (distinct : cs.Nodup) (proper : 0 ∉ cs) : cs.length < MAX_NODES := by
  have all := (nodup_cons.mpr ⟨proper, distinct⟩).length_le_card
  rwa [length_cons, Fintype.card_fin] at all

section

variable (linked : Linked (.inr 0) (next nodes) link (cs.map .inr)) (first : next nodes link = .inr child)
  (enough : cs.length < rounds)

include linked first enough

theorem siblings_rule {motive : List Slot → Nat → Slot → Prop} (stop : ∀ rounds, motive [] (rounds + 1) 0)
    (step : ∀ c cs rounds, c ≠ 0 → motive cs rounds (nodes c).nextSibling → motive (c :: cs) (rounds + 1) c) :
    motive cs rounds child := by
  induction cs generalizing rounds link child with
  | nil =>
    obtain ⟨rounds, rfl⟩ := exists_eq_add_one.mpr enough
    obtain rfl : child = 0 := inr.inj (first.symm.trans linked)
    exact stop rounds
  | cons c cs ih =>
    obtain ⟨rounds, rfl⟩ := exists_eq_add_one.mpr (zero_lt_of_lt enough)
    obtain rfl : child = c := inr.inj (first.symm.trans linked.1)
    have proper : child ≠ 0 := fun zero => linked.2.1 (congrArg inr zero)
    exact step child cs rounds proper (ih linked.2.2 rfl (lt_of_succ_lt_succ enough))

theorem findFrom_eq :
    findFrom nodes name rounds child = some (cs.find? fun c => (nodes c).nameMatches name) := by
  refine siblings_rule (motive := fun cs rounds child => findFrom nodes name rounds child = some (cs.find? _))
    linked first enough (fun _ => ?_) (fun c cs rounds proper ih => ?_)
  · rw [findFrom, if_pos rfl, find?_nil]
  · rw [findFrom, if_neg proper, find?_cons, ih]
    cases (nodes c).nameMatches name <;> rfl

/-- The search of `unlink` over a list: the first match with what precedes it. -/
def locate (found : Slot → Bool) : Slot → List Slot → Option (Slot × Slot)
  | _, [] => none
  | prev, c :: cs => if found c then some (prev, c) else locate found c cs

theorem unlinkFrom_eq :
    unlinkFrom nodes name rounds prev child =
      some (locate (fun c => (nodes c).nameMatches name) prev cs) := by
  refine siblings_rule (motive := fun cs rounds child => ∀ prev,
    unlinkFrom nodes name rounds prev child = some (locate _ prev cs))
    linked first enough (fun _ prev => ?_) (fun c cs rounds proper ih prev => ?_) prev
  · rw [unlinkFrom, if_pos rfl, locate]
  · rw [unlinkFrom, if_neg proper, locate, ih]
    split <;> rfl

end

theorem locate_some {found : Slot → Bool} {at' : Slot × Slot} (hit : locate found prev cs = some at') :
    ∃ pre post, cs = pre ++ at'.2 :: post ∧ at'.1 = lastNode prev pre ∧ cs.find? found = some at'.2 := by
  induction cs generalizing prev with
  | nil => simp [locate] at hit
  | cons c cs ih =>
    rw [locate] at hit
    by_cases here : found c = true
    · rw [if_pos here] at hit
      cases hit
      exact ⟨[], cs, rfl, rfl, by rw [find?_cons, here]⟩
    · rw [if_neg here] at hit
      obtain ⟨pre, post, split, last, first⟩ := ih hit
      refine ⟨c :: pre, post, by rw [split]; rfl, last, ?_⟩
      rw [find?_cons, Bool.eq_false_iff.mpr here, first]

theorem lastFrom_eq (linked : Linked (.inr 0) (next nodes) (.inr child) (cs.map .inr))
    (enough : cs.length < rounds) : lastFrom nodes rounds child = some (lastNode child cs) := by
  refine siblings_rule (motive := fun cs rounds c => ∀ last, (nodes last).nextSibling = c →
    lastFrom nodes rounds last = some (lastNode last cs))
    linked rfl enough (fun _ last here => ?_) (fun c cs rounds proper ih last here => ?_) child rfl
  · rw [lastFrom, if_pos here, lastNode_nil]
  · rw [lastFrom, here, if_neg proper]
    exact ih c rfl

theorem lastNode_link (d prev : Slot) (pre : List Slot) :
    lastNode (.inl d : Link) (pre.map .inr) = if pre = [] then .inl d else .inr (lastNode prev pre) := by
  cases pre with
  | nil => rfl
  | cons c pre =>
    rw [if_neg (cons_ne_nil c pre), map_cons, lastNode_cons, lastNode_cons, lastNode_map]

end Loops

/-- `nodes'` is `nodes` with the unused slot `child` put behind `link`, below `p`. -/
structure Inserted (nodes nodes' : Slot → TmpNode) (p child : Slot) (link : Link) : Prop where
  links : ∀ l, next nodes' l = if l = link then .inr child else next nodes l
  parents : ∀ i, (nodes' i).parent = if i = child then p else (nodes i).parent
  types : ∀ i ≠ child, (nodes' i).fileType = (nodes i).fileType

/-- `nodes'` is `nodes` with `child` taken out from behind `link`. -/
structure Detached (nodes nodes' : Slot → TmpNode) (child : Slot) (link : Link) : Prop where
  links : ∀ l, next nodes' l = if l = link then next nodes (.inr child) else next nodes l
  parents : ∀ i, (nodes' i).parent = (nodes i).parent
  types : ∀ i, (nodes' i).fileType = if i = child then .none else (nodes i).fileType

section Edits

variable {nodes : Slot → TmpNode} {node fill : TmpNode} {p child i : Slot} {cs pre post : List Slot}
  {β : Type}

theorem update_keeps (f : TmpNode → β) (same : f node = f (nodes i)) (j : Slot) :
    f (update nodes i node j) = f (nodes j) := by
  by_cases here : j = i
  · subst here
    rw [update_self, same]
  · rw [update_of_ne here]

theorem next_update (first : node.firstChild = (nodes i).firstChild)
    (sibling : node.nextSibling = (nodes i).nextSibling) : next (update nodes i node) = next nodes := by
  funext l
  cases l with
  | inl d => exact congrArg inr (update_keeps firstChild first d)
  | inr c => exact congrArg inr (update_keeps nextSibling sibling c)

/-- Storing `target` in a link. -/
def setLink (nodes : Slot → TmpNode) (link : Link) (target : Slot) : Slot → TmpNode :=
  match link with
  | .inl d => update nodes d { nodes d with firstChild := target }
  | .inr c => update nodes c { nodes c with nextSibling := target }

theorem next_setLink (link l : Link) (target : Slot) :
    next (setLink nodes link target) l = if l = link then .inr target else next nodes l := by
  cases link with
  | inl d =>
    cases l with
    | inl d' =>
      by_cases same : d' = d
      · subst same
        simp [next, setLink]
      · simp [next, setLink, same]
    | inr c => exact congrArg inr (update_keeps nextSibling (by rfl) c)
  | inr c =>
    cases l with
    | inl d => exact congrArg inr (update_keeps firstChild (by rfl) d)
    | inr c' =>
      by_cases same : c' = c
      · subst same
        simp [next, setLink]
      · simp [next, setLink, same]

theorem setLink_keeps (f : TmpNode → β) (link : Link) (target j : Slot)
    (head : ∀ node, f { node with firstChild := target } = f node)
    (sibling : ∀ node, f { node with nextSibling := target } = f node) :
    f (setLink nodes link target j) = f (nodes j) := by
  cases link with
  | inl d => exact update_keeps f (head (nodes d)) j
  | inr c => exact update_keeps f (sibling (nodes c)) j

theorem addChild_eq (walk : Walk nodes p cs) (distinct : cs.Nodup) :
    addChild nodes p child = some (setLink
      (update nodes child { nodes child with parent := p })
      (lastNode (.inl p) (cs.map .inr)) child) := by
  have links : next (update nodes child { nodes child with parent := p }) = next nodes :=
    next_update rfl rfl
  have proper : 0 ∉ cs := fun zero => walk.ne_nil _ (mem_map_of_mem zero) rfl
  have enough := length_lt distinct proper
  unfold addChild
  dsimp only
  generalize update nodes child { nodes child with parent := p } = named at links ⊢
  have walk : Walk named p cs := by rwa [Walk, links]
  cases cs with
  | nil =>
    rw [if_pos (inr.inj walk)]
    rfl
  | cons c cs =>
    have first : (named p).firstChild = c := inr.inj walk.1
    have nonzero : c ≠ 0 := fun zero => proper (zero ▸ mem_cons_self)
    rw [first, if_neg nonzero, lastFrom_eq walk.2.2 (lt_of_succ_lt enough), lastNode_link _ 0,
      if_neg (cons_ne_nil _ _)]
    rfl

theorem addChild_inserted (walk : Walk nodes p cs) (distinct : cs.Nodup)
    (head : fill.firstChild = (nodes child).firstChild) (sibling : fill.nextSibling = (nodes child).nextSibling) :
    ∃ nodes', addChild (update nodes child fill) p child = some nodes' ∧
      Inserted nodes nodes' p child (lastNode (.inl p) (cs.map .inr)) := by
  have links : next (update nodes child fill) = next nodes := next_update head sibling
  refine ⟨_, addChild_eq (by rwa [Walk, links]) distinct, fun l => ?_, fun j => ?_, fun j other => ?_⟩
  · rw [next_setLink, next_update, links] <;> rfl
  · rw [setLink_keeps parent _ _ _ (fun _ => rfl) fun _ => rfl]
    by_cases same : j = child
    · subst same
      rw [update_self, if_pos rfl]
    · rw [update_of_ne same, update_of_ne same, if_neg same]
  · rw [setLink_keeps fileType _ _ _ (fun _ => rfl) fun _ => rfl, update_of_ne other, update_of_ne other]

theorem detach_detached (walk : Walk nodes p (pre ++ child :: post)) :
    Detached nodes (detach nodes p (lastNode 0 pre) child) child
      (lastNode (.inl p) (pre.map .inr)) := by
  have proper : ∀ c ∈ pre, c ≠ 0 := fun c mem zero =>
    walk.ne_nil (.inr c) (mem_map_of_mem (mem_append_left _ mem)) (congrArg inr zero)
  have head : lastNode 0 pre = 0 ↔ pre = [] := by
    cases pre with
    | nil => simp
    | cons c pre =>
      have last : lastNode c pre ∈ c :: pre := lastNode_mem c pre
      simpa using proper _ last
  have stored : detach nodes p (lastNode 0 pre) child =
      update (setLink nodes (lastNode (.inl p) (pre.map .inr)) (nodes child).nextSibling)
        child { setLink nodes (lastNode (.inl p) (pre.map .inr)) (nodes child).nextSibling child with
          fileType := .none } := by
    rw [lastNode_link p 0 pre, detach]
    by_cases first : pre = []
    · rw [if_pos (head.mpr first), if_pos first]
      rfl
    · rw [if_neg (mt head.mp first), if_neg first]
      rfl
  rw [stored]
  refine ⟨?_, ?_, ?_⟩
  · intro l
    rw [next_update, next_setLink] <;> rfl
  · intro j
    rw [update_keeps parent (by rfl), setLink_keeps parent _ _ _ (fun _ => rfl) fun _ => rfl]
  · intro j
    by_cases same : j = child
    · subst same
      rw [update_self, if_pos rfl]
    · rw [update_of_ne same, if_neg same, setLink_keeps fileType _ _ _ (fun _ => rfl) fun _ => rfl]

end Edits

section Walks

variable {nodes nodes' : Slot → TmpNode} {p child d : Slot} {cs ds pre post : List Slot}

theorem ne_lastNode {l : Link} (apart : l ∉ (.inl p :: cs.map .inr : List Link)) :
    l ≠ lastNode (.inl p) (cs.map .inr) :=
  fun same => apart (same ▸ lastNode_mem ..)

/-- A list that shares no link with the list of `p` up to `cs` is not changed by
    storing in the link that ends `cs`. -/
theorem walk_other (cs : List Slot) (walk : Walk nodes d ds) (other : d ≠ p) (apart : ∀ c ∈ ds, c ∉ cs)
    (frame : ∀ l, l ≠ lastNode (.inl p) (cs.map .inr) → next nodes' l = next nodes l) : Walk nodes' d ds := by
  refine walk.shift (frame _ (ne_lastNode (by simpa using other))) ?_
  exact forall_mem_map.mpr fun c inside => frame _ (ne_lastNode (by simpa using apart c inside))

theorem nodup_links (distinct : cs.Nodup) : (.inl p :: cs.map .inr : List Link).Nodup := by
  refine nodup_cons.mpr ⟨?_, distinct.map inr_injective⟩
  simp

theorem Inserted.walk_self (inserted : Inserted nodes nodes' p child (lastNode (.inl p) (cs.map .inr)))
    (walk : Walk nodes p cs) (distinct : cs.Nodup) (proper : child ≠ 0) (fresh : child ∉ cs)
    (unlinked : (nodes child).nextSibling = 0) : Walk nodes' p (cs ++ [child]) := by
  have linked : Linked (.inr 0) (next nodes) (.inl p) (cs.map .inr ++ []) := by
    rwa [append_nil]
  rw [Walk, map_append]
  refine linked.relink (nodup_links distinct) ?_ ?_
  · intro l _ notLast
    rw [inserted.links, if_neg notLast]
  · refine ⟨?_, fun zero => proper (inr.inj zero), ?_⟩
    · rw [inserted.links, if_pos rfl]
    · show next nodes' (.inr child) = .inr 0
      rw [inserted.links, if_neg (ne_lastNode (by simpa using fresh)), next, unlinked]

theorem Detached.walk_self (detached : Detached nodes nodes' child (lastNode (.inl p) (pre.map .inr)))
    (walk : Walk nodes p (pre ++ child :: post)) (distinct : (pre ++ child :: post).Nodup) :
    Walk nodes' p (pre ++ post) := by
  have links := nodup_links (p := p) distinct
  rw [Walk, map_append] at walk ⊢
  rw [map_append, ← cons_append, nodup_append] at links
  refine walk.relink links.1 ?_ ?_
  · intro l _ notLast
    rw [detached.links, if_neg notLast]
  · refine (walk.suffix.2.2).shift ?_ ?_
    · rw [detached.links, if_pos rfl]
    · intro l mem
      rw [detached.links, if_neg]
      exact fun same => links.2.2 _ (lastNode_mem _ _) l (.tail _ mem) same.symm

end Walks

def Live (fs : TmpFs) (removed : Finset Slot) (c : Slot) : Prop :=
  c.val < fs.nodeCount ∧ c ∉ removed

/-- The table holds a tree, with `kids` the child lists. -/
structure Tree (fs : TmpFs) (removed : Finset Slot) (kids : Slot → List Slot) : Prop where
  walk : ∀ d, Walk fs.nodes d (kids d)
  distinct : ∀ d, (kids d).Nodup
  mem : ∀ {d c}, c ∈ kids d ↔ c ≠ 0 ∧ Live fs removed c ∧ (fs.nodes c).parent = d
  parent : ∀ {c}, c ≠ 0 → Live fs removed c → (fs.nodes c).parent < c ∧
    Live fs removed (fs.nodes c).parent ∧ (fs.nodes (fs.nodes c).parent).fileType = .directory
  root : Live fs removed 0 ∧ (fs.nodes 0).fileType = .directory
  gone : ∀ c ∈ removed, (fs.nodes c).fileType = .none
  unused : ∀ c : Slot, fs.nodeCount ≤ c.val → (fs.nodes c).nextSibling = 0 ∧ c ∉ removed

namespace Tree

variable {fs : TmpFs} {removed : Finset Slot} {kids : Slot → List Slot} {p child : Slot} {name : Str}
  {inode : Nat}

section

variable (tree : Tree fs removed kids) {cs list pre post : List Slot} {nodes' : Slot → TmpNode}

include tree

theorem short (d : Slot) : (kids d).length < MAX_NODES :=
  length_lt (tree.distinct d) fun zero => (tree.mem.mp zero).1 rfl

theorem findChild_eq (d : Slot) :
    findChild fs.nodes d name = some ((kids d).find? fun c => (fs.nodes c).nameMatches name) :=
  findFrom_eq (tree.walk d) rfl (tree.short d)

theorem live_of_directory (known : inode < fs.nodeCount)
    (directory : (fs.nodes (fs.slot known)).fileType = .directory) : Live fs removed (fs.slot known) := by
  refine ⟨known, fun away => ?_⟩
  rw [tree.gone _ away] at directory
  cases directory

theorem childless (removable : ¬ ((fs.nodes child).fileType = .directory ∧ (fs.nodes child).firstChild ≠ 0)) :
    kids child = [] := by
  refine eq_nil_iff_forall_not_mem.mpr fun c mem => ?_
  obtain ⟨proper, live, parent⟩ := tree.mem.mp mem
  have directory := (tree.parent proper live).2.2
  rw [parent] at directory
  refine removable ⟨directory, fun none => ?_⟩
  have walk := tree.walk child
  cases list : kids child with
  | nil => exact absurd (list ▸ mem) not_mem_nil
  | cons e es =>
    rw [list] at walk
    exact walk.2.1 (walk.1.symm.trans (congrArg inr none))

theorem relisted (part : ∀ c ∈ cs, c ∈ kids p)
    (frame : ∀ l, l ≠ lastNode (.inl p) (cs.map .inr) → next nodes' l = next fs.nodes l)
    (walk : Walk nodes' p list) (distinct : list.Nodup) :
    (∀ d, Walk nodes' d (update kids p list d)) ∧ (∀ d, (update kids p list d).Nodup) ∧
      ∀ c : Slot, fs.nodeCount ≤ c.val → (nodes' c).nextSibling = 0 := by
  refine ⟨fun d => ?_, fun d => ?_, fun c beyond => ?_⟩
  · by_cases here : d = p
    · subst here
      rwa [update_self]
    · rw [update_of_ne here]
      refine walk_other cs (tree.walk d) here (fun c mine theirs => here ?_) frame
      exact (tree.mem.mp mine).2.2.symm.trans (tree.mem.mp (part c theirs)).2.2
  · by_cases here : d = p
    · subst here
      rwa [update_self]
    · rw [update_of_ne here]
      exact tree.distinct d
  · have apart : c ∉ cs := fun mem => Nat.not_lt_of_le beyond (tree.mem.mp (part c mem)).2.1.1
    have same := frame (.inr c) (ne_lastNode (by simpa using apart))
    exact (inr.inj same).trans (tree.unused c beyond).1

theorem inserted (room : fs.nodeCount < MAX_NODES) (index : child.val = fs.nodeCount)
    (live : Live fs removed p) (directory : (fs.nodes p).fileType = .directory)
    (edit : Inserted fs.nodes nodes' p child (lastNode (.inl p) ((kids p).map .inr))) :
    Tree ⟨nodes', fs.nodeCount + 1, room⟩ removed (update kids p (kids p ++ [child])) := by
  have unused := tree.unused child (le_of_eq index.symm)
  have notLive : ¬ Live fs removed child := fun isLive => Nat.ne_of_lt isLive.1 index
  have nonzero : child ≠ 0 := fun zero => notLive (zero ▸ tree.root.1)
  have live_iff : ∀ c, Live ⟨nodes', fs.nodeCount + 1, room⟩ removed c ↔ Live fs removed c ∨ c = child := by
    intro c
    constructor
    · rintro ⟨below, kept⟩
      cases Nat.lt_succ_iff_lt_or_eq.mp below with
      | inl old => exact .inl ⟨old, kept⟩
      | inr new => exact .inr (Fin.ext (new.trans index.symm))
    · rintro (⟨below, kept⟩ | same)
      · exact ⟨lt_succ_of_lt below, kept⟩
      · rw [same]
        exact ⟨lt_succ_of_le (le_of_eq index), unused.2⟩
  have other : ∀ {c}, Live fs removed c → c ≠ child := fun isLive same => notLive (same ▸ isLive)
  have fresh : child ∉ kids p := fun mem => notLive (tree.mem.mp mem).2.1
  have listed : ∀ {d c}, c ∈ update kids p (kids p ++ [child]) d ↔ c ∈ kids d ∨ c = child ∧ d = p := by
    intro d c
    by_cases here : d = p
    · subst here
      simp
    · simp [here]
  obtain ⟨walks, distincts, unlinked⟩ := tree.relisted (fun _ => id) (fun l apart => by rw [edit.links, if_neg apart])
    (edit.walk_self (tree.walk p) (tree.distinct p) nonzero fresh unused.1)
    ((tree.distinct p).append (nodup_singleton _) (disjoint_singleton.mpr fresh))
  refine ⟨walks, distincts, ?_, ?_, ?_, ?_, ?_⟩
  · intro d c
    rw [listed, tree.mem, live_iff, edit.parents]
    by_cases same : c = child
    · subst same
      simp [notLive, nonzero, eq_comm]
    · simp [same]
  · intro c proper isLive
    rw [edit.parents]
    cases (live_iff c).mp isLive with
    | inl old =>
      obtain ⟨smaller, alive, isDir⟩ := tree.parent proper old
      rw [if_neg (other old)]
      exact ⟨smaller, (live_iff _).mpr (.inl alive), (edit.types _ (other alive)).trans isDir⟩
    | inr same =>
      rw [if_pos same, same]
      exact ⟨Fin.lt_def.mpr (index ▸ live.1), (live_iff p).mpr (.inl live), (edit.types p (other live)).trans directory⟩
  · refine ⟨(live_iff 0).mpr (.inl tree.root.1), ?_⟩
    exact (edit.types 0 nonzero.symm).trans tree.root.2
  · intro c away
    refine (edit.types c fun same => unused.2 (same ▸ away)).trans (tree.gone c away)
  · exact fun c beyond => ⟨unlinked c (le_of_succ_le beyond), (tree.unused c (le_of_succ_le beyond)).2⟩

theorem detached (split : kids p = pre ++ child :: post) (leaf : kids child = [])
    (edit : Detached fs.nodes nodes' child (lastNode (.inl p) (pre.map .inr))) :
    Tree { fs with nodes := nodes' } (insert child removed)
      (update kids p (pre ++ post)) := by
  have mine : child ∈ kids p := by simp [split]
  have distinct : (pre ++ child :: post).Nodup := split ▸ tree.distinct p
  obtain ⟨nonzero, alive, parent⟩ := tree.mem.mp mine
  have live_iff : ∀ c, Live { fs with nodes := nodes' } (insert child removed) c ↔
      Live fs removed c ∧ c ≠ child := by
    intro c
    rw [Live, Live, Finset.mem_insert]
    tauto
  have parents : ∀ {c}, c ≠ 0 → Live fs removed c → (fs.nodes c).parent ≠ child := by
    intro c proper isLive same
    have inside : c ∈ kids child := tree.mem.mpr ⟨proper, isLive, same⟩
    rw [leaf] at inside
    exact not_mem_nil inside
  have listed : ∀ {d c}, c ∈ update kids p (pre ++ post) d ↔ c ∈ kids d ∧ c ≠ child := by
    intro d c
    by_cases here : d = p
    · subst here
      rw [update_self, split]
      have apart := nodup_middle.mp distinct
      have absent : child ∉ pre ++ post := (nodup_cons.mp apart).1
      constructor
      · intro mem
        refine ⟨?_, fun same => absent (same ▸ mem)⟩
        simp only [mem_append, mem_cons] at mem ⊢
        tauto
      · rintro ⟨mem, differs⟩
        simp only [mem_append, mem_cons] at mem ⊢
        tauto
    · rw [update_of_ne here]
      refine ⟨fun mem => ⟨mem, fun same => here ?_⟩, And.left⟩
      exact (tree.mem.mp mem).2.2.symm.trans (same ▸ parent)
  obtain ⟨walks, distincts, unlinked⟩ := tree.relisted (fun c before => split ▸ mem_append_left _ before)
    (fun l apart => by rw [edit.links, if_neg apart]) (edit.walk_self (split ▸ tree.walk p) distinct)
    (nodup_cons.mp (nodup_middle.mp distinct)).2
  refine ⟨walks, distincts, ?_, ?_, ?_, ?_, ?_⟩
  · intro d c
    rw [listed, tree.mem, live_iff, edit.parents]
    tauto
  · intro c proper isLive
    obtain ⟨old, _⟩ := (live_iff c).mp isLive
    obtain ⟨smaller, up, isDir⟩ := tree.parent proper old
    rw [edit.parents, edit.types, if_neg (parents proper old)]
    exact ⟨smaller, (live_iff _).mpr ⟨up, parents proper old⟩, isDir⟩
  · refine ⟨(live_iff 0).mpr ⟨tree.root.1, nonzero.symm⟩, ?_⟩
    rw [edit.types, if_neg nonzero.symm, tree.root.2]
  · intro c away
    rw [edit.types]
    cases Finset.mem_insert.mp away with
    | inl same => rw [if_pos same]
    | inr old => rw [tree.gone c old, ite_self]
  · refine fun c beyond => ⟨unlinked c beyond, fun away => ?_⟩
    cases Finset.mem_insert.mp away with
    | inl same => exact Nat.not_lt_of_le beyond (same ▸ alive.1)
    | inr old => exact (tree.unused c beyond).2 old

/-- A new node is refused and nothing changes, or the tree is kept. -/
def Made (fs : TmpFs) (removed : Finset Slot) (run : Option (Option Nat × TmpFs)) : Prop :=
  ∃ made fs', run = some (made, fs') ∧ (made = none → fs' = fs) ∧ ∃ kids', Tree fs' removed kids'

theorem insert_spec (live : Live fs removed p)
    (directory : (fs.nodes p).fileType = .directory) {fill : TmpNode → TmpNode}
    (heads : ∀ node, (fill node).firstChild = node.firstChild)
    (siblings : ∀ node, (fill node).nextSibling = node.nextSibling) : Made fs removed (fs.insert p fill) := by
  by_cases room : fs.nodeCount < MAX_NODES
  · let child : Slot := ⟨fs.nodeCount, room⟩
    obtain ⟨nodes', added, edit⟩ := addChild_inserted (tree.walk p) (tree.distinct p)
      (heads (fs.nodes child)) (siblings (fs.nodes child))
    refine ⟨some fs.nodeCount, ⟨nodes', fs.nodeCount + 1, room⟩, ?_, by simp,
      _, tree.inserted room rfl live directory edit⟩
    rw [TmpFs.insert, allocNode, dif_pos room]
    dsimp only
    rw [added]
    rfl
  · refine ⟨none, fs, ?_, fun _ => rfl, kids, tree⟩
    rw [TmpFs.insert, allocNode, dif_neg room]

theorem parentFor_spec :
    fs.parentFor inode name = some none ∨ ∃ p, fs.parentFor inode name = some (some p) ∧ Live fs removed p ∧
        (fs.nodes p).fileType = .directory := by
  by_cases known : inode < fs.nodeCount
  · by_cases directory : (fs.nodes (fs.slot known)).fileType = .directory
    · rw [parentFor, dif_pos known]
      rw [if_neg (not_not.mpr directory), tree.findChild_eq]
      cases (kids (fs.slot known)).find? fun c => (fs.nodes c).nameMatches name with
      | some c => exact .inl rfl
      | none => exact .inr ⟨_, rfl, tree.live_of_directory known directory, directory⟩
    · left
      rw [parentFor, dif_pos known]
      rw [if_pos directory]
  · left
    rw [parentFor, dif_neg known]

theorem create_spec (inode : Nat) (name : Str) (fileType : FileType) :
    Made fs removed (fs.create inode name fileType) := by
  rw [create]
  rcases tree.parentFor_spec with refused | ⟨p, passed, live, directory⟩
  · rw [refused]
    exact ⟨none, fs, rfl, fun _ => rfl, kids, tree⟩
  · rw [passed]
    exact tree.insert_spec live directory (fun _ => rfl) fun _ => rfl

theorem symlink_spec (inode : Nat) (name target : Str) : Made fs removed (fs.symlink inode name target) := by
  rw [symlink]
  rcases tree.parentFor_spec with refused | ⟨p, passed, live, directory⟩
  · rw [refused]
    exact ⟨none, fs, rfl, fun _ => rfl, kids, tree⟩
  · rw [passed]
    by_cases fit : target.length ≤ MAX_FILE_SIZE
    · simp only [dif_pos fit]
      exact tree.insert_spec live directory (fun _ => rfl) fun _ => rfl
    · simp only [dif_neg fit]
      exact ⟨none, fs, rfl, fun _ => rfl, kids, tree⟩

theorem unlink_spec (inode : Nat) (name : Str) :
    fs.unlink inode name = some (false, fs) ∨
      ∃ (known : inode < fs.nodeCount) (child : Slot) (fs' : TmpFs), fs.unlink inode name = some (true, fs') ∧
        findChild fs.nodes (fs.slot known) name = some (some child) ∧
        ∃ kids', Tree fs' (insert child removed) kids' := by
  by_cases known : inode < fs.nodeCount
  · have walk := tree.walk (fs.slot known)
    rw [unlink, dif_pos known]
    dsimp only
    rw [unlinkFrom_eq walk rfl (tree.short _), Option.map_some]
    cases hit : locate (fun c => (fs.nodes c).nameMatches name) 0 (kids (fs.slot known)) with
    | none => exact .inl rfl
    | some at' =>
      obtain ⟨prev, child⟩ := at'
      obtain ⟨pre, post, split, last, found⟩ := locate_some hit
      obtain rfl : prev = lastNode 0 pre := last
      by_cases full : (fs.nodes child).fileType = .directory ∧ (fs.nodes child).firstChild ≠ 0
      · simp only [if_pos full]
        exact .inl trivial
      · simp only [if_neg full]
        refine .inr ⟨known, child, _, rfl, ?_, _, tree.detached split (tree.childless full)
          (detach_detached (split ▸ walk))⟩
        rw [tree.findChild_eq, found]
  · left
    rw [unlink, dif_neg known]

end

end Tree

/-- The calls that change the tree. -/
inductive Call where
  | create (parentInode : Nat) (name : Str) (fileType : FileType)
  | symlink (parentInode : Nat) (name target : Str)
  | unlink (parentInode : Nat) (name : Str)

/-- A call's report of success, and the table after it; `none` if a walk does not end. -/
def outcome (fs : TmpFs) : Call → Option (Bool × TmpFs)
  | .create parentInode name fileType =>
    (fs.create parentInode name fileType).map fun r => (r.1.isSome, r.2)
  | .symlink parentInode name target =>
    (fs.symlink parentInode name target).map fun r => (r.1.isSome, r.2)
  | .unlink parentInode name => fs.unlink parentInode name

/-- The table next to the slots that were removed. -/
structure History where
  fs : TmpFs
  removed : Finset Slot

def victim (fs : TmpFs) : Call → Option Slot
  | .unlink parentInode name =>
    if known : parentInode < fs.nodeCount then
      (findChild fs.nodes (fs.slot known) name).getD none
    else none
  | _ => none

def step (h : History) (call : Call) : Option History :=
  match outcome h.fs call with
  | none => none
  | some (false, fs) => some { h with fs }
  | some (true, fs) =>
    match victim h.fs call with
    | none => some { h with fs }
    | some child => some ⟨fs, insert child h.removed⟩

def fresh : History := ⟨TmpFs.boot.new, ∅⟩

def Inv (h : History) : Prop := ∃ kids, Tree h.fs h.removed kids

theorem fresh_inv : Inv fresh := by
  have links : ∀ l, next fresh.fs.nodes l = .inr 0 := by
    intro l
    cases l with
    | inl d => exact congrArg inr (update_keeps firstChild (by rfl) d)
    | inr c => exact congrArg inr (update_keeps nextSibling (by rfl) c)
  have only : ∀ {c : Slot}, Live fresh.fs ∅ c → c = 0 := fun live =>
    Fin.ext (lt_one_iff.mp live.1)
  refine ⟨fun _ => [], ⟨fun d => links (.inl d), fun _ => nodup_nil, ?_, ?_, ?_, ?_, ?_⟩⟩
  · intro d c
    refine iff_of_false not_mem_nil ?_
    rintro ⟨proper, live, -⟩
    exact proper (only live)
  · exact fun proper live => absurd (only live) proper
  · exact ⟨⟨one_pos, Finset.notMem_empty _⟩, rfl⟩
  · exact fun c away => absurd away (Finset.notMem_empty c)
  · exact fun c _ => ⟨inr.inj (links (.inr c)), Finset.notMem_empty c⟩

theorem step_inv (h : History) (call : Call) (inv : Inv h) :
    ∃ ok fs', outcome h.fs call = some (ok, fs') ∧ (ok = false → fs' = h.fs) ∧
      ∃ h', step h call = some h' ∧ Inv h' := by
  obtain ⟨kids, tree⟩ := inv
  have made : ∀ {run : Option (Option Nat × TmpFs)},
      outcome h.fs call = run.map (fun r => (r.1.isSome, r.2)) → victim h.fs call = none →
      Tree.Made h.fs h.removed run →
      ∃ ok fs', outcome h.fs call = some (ok, fs') ∧ (ok = false → fs' = h.fs) ∧
        ∃ h', step h call = some h' ∧ Inv h' := by
    rintro _ result nobody ⟨made, fs', rfl, failed, tree'⟩
    refine ⟨made.isSome, fs', result, fun no => failed (by simpa using no), ?_⟩
    rw [step, result, nobody]
    cases made with
    | none | some i => exact ⟨_, rfl, tree'⟩
  cases call with
  | create parentInode name fileType => exact made rfl rfl (tree.create_spec parentInode name fileType)
  | symlink parentInode name target => exact made rfl rfl (tree.symlink_spec parentInode name target)
  | unlink parentInode name =>
    rcases tree.unlink_spec parentInode name with
      run | ⟨known, child, fs', run, found, tree'⟩
    · refine ⟨false, h.fs, run, fun _ => rfl, h, ?_, kids, tree⟩
      rw [step, outcome, run]
    · refine ⟨true, fs', run, by simp, ⟨fs', insert child h.removed⟩, ?_, tree'⟩
      rw [step, outcome, run]
      simp only [victim, dif_pos known, found]
      rfl

/-- After any calls from a fresh tmpfs, each of which returns: the walk from a live
    directory meets live nodes and none twice, each live node but the root is on the
    list of its parent, a live directory, and on no other, every live node is
    reachable, and a call that reports failure changes nothing. -/
theorem tree_holds (calls : List Call) :
    ∃ h, Lib.Run.exec step calls fresh = some h ∧
      (∀ d, Live h.fs h.removed d → ∃ cs, Walk h.fs.nodes d cs ∧ cs.Nodup ∧
        ∀ c ∈ cs, Live h.fs h.removed c) ∧
      (∀ c, c ≠ 0 → Live h.fs h.removed c →
        Live h.fs h.removed (h.fs.nodes c).parent ∧
        (h.fs.nodes (h.fs.nodes c).parent).fileType = .directory ∧
        ∀ d cs, Walk h.fs.nodes d cs → (c ∈ cs ↔ d = (h.fs.nodes c).parent)) ∧
      (∀ c, Live h.fs h.removed c → Reachable h.fs.nodes c) ∧
      ∀ call, ∃ ok fs', outcome h.fs call = some (ok, fs') ∧ (ok = false → fs' = h.fs) := by
  have go : ∀ h call, Inv h → ∃ h', step h call = some h' ∧ Inv h' := by
    intro h call inv
    obtain ⟨_, _, _, _, h', stepped, inv'⟩ := step_inv h call inv
    exact ⟨h', stepped, inv'⟩
  obtain ⟨h, run, inv⟩ := Lib.Run.exec_total Inv go calls fresh_inv
  obtain ⟨kids, tree⟩ := id inv
  refine ⟨h, run, ?_, ?_, ?_, ?_⟩
  · exact fun d _ => ⟨kids d, tree.walk d, tree.distinct d, fun c mem => (tree.mem.mp mem).2.1⟩
  · intro c proper live
    obtain ⟨-, alive, directory⟩ := tree.parent proper live
    refine ⟨alive, directory, fun d cs walk => ?_⟩
    obtain rfl : cs = kids d := map_injective_iff.mpr inr_injective (walk.unique (tree.walk d))
    rw [tree.mem, eq_comm (a := d)]
    exact ⟨fun found => found.2.2, fun up => ⟨proper, live, up⟩⟩
  · intro c
    -- parents have smaller slots
    induction c using WellFoundedLT.induction with
    | ind c ih =>
      intro live
      by_cases root : c = 0
      · rw [root]
        exact .root
      · obtain ⟨smaller, alive, -⟩ := tree.parent root live
        exact .child (ih _ smaller alive) (tree.walk _) (tree.mem.mpr ⟨root, live, rfl⟩)
  · intro call
    obtain ⟨ok, fs', result, unchanged, -⟩ := step_inv h call inv
    exact ⟨ok, fs', result, unchanged⟩

end Zenus.Fs.TmpfsTree
