import Zenus.Fs.Vfs
import Zenus.Fs.MountRuns

/-! # The components of a path

The normal form of a path drops empty components and `.`, and lets each `..` cancel
the component before it.  Inside a mount the code keeps the segments of a path on a
stack of its own, from which `..` never drops the first one; as long as no `..` is
met with fewer than two segments open, that stack ends as the normal form's.
-/

namespace Zenus.Fs

open List Option

/-- The component `..`. -/
def DOTDOT : Str := [DOT, DOT]

/-- The components of a path, without empty ones and `.`. -/
def comps (path : Str) : List Str := (path.splitOn SLASH).filter fun c => !(c.isEmpty || c == [DOT])

/-- `..` cancels the component before it; at the root it stays there. -/
def cancel (stack : List Str) (c : Str) : List Str := if c = DOTDOT then stack.dropLast else stack ++ [c]

def normalComps (path : Str) : List Str := (comps path).foldl cancel []

def render (cs : List Str) : Str := if cs = [] then [SLASH] else [SLASH].intercalate ([] :: cs)

def normalForm (path : Str) : Str := render (normalComps path)

/-- The components of a path below a mount point. -/
def inner (path mount : Str) : List Str := comps (relativePath path mount)

section Components

variable {path mount a b c : Str} {cs stack : List Str}

/-- A name that can stand in a normal form. -/
structure Proper (c : Str) : Prop where
  nonempty : c ≠ []
  notDot : c ≠ [DOT]
  notDotDot : c ≠ DOTDOT
  slashFree : SLASH ∉ c

theorem mem_comps : c ∈ comps path ↔ c ∈ path.splitOn SLASH ∧ c ≠ [] ∧ c ≠ [DOT] := by
  rw [comps, mem_filter]
  simp

theorem slash_notMem_splitOn (path : Str) : ∀ c ∈ path.splitOn SLASH, SLASH ∉ c := by
  induction n : path.length using Nat.strong_induction_on generalizing path with
  | h n ih =>
    intro c mem
    by_cases inside : SLASH ∈ path
    · obtain ⟨front, back, rfl, first⟩ := eq_append_cons_of_mem inside
      rw [splitOn_append_cons_self, splitOn_eq_singleton first] at mem
      cases mem_append.mp mem with
      | inl here => rwa [mem_singleton.mp here]
      | inr later =>
        refine ih back.length ?_ back rfl c later
        rw [← n, length_append, length_cons]
        omega
    · rw [splitOn_eq_singleton inside] at mem
      rwa [mem_singleton.mp mem]

theorem comps_append (a b : Str) : comps (a ++ SLASH :: b) = comps a ++ comps b := by
  rw [comps, splitOn_append_cons_self, filter_append]
  rfl

theorem comps_slash (path : Str) : comps (SLASH :: path) = comps path := comps_append [] path

theorem comps_trimStart (path : Str) : comps (trimStart path) = comps path := by
  induction path with
  | nil => rfl
  | cons b path ih =>
    by_cases slash : b = SLASH
    · rw [slash, comps_slash, ← ih, trimStart, dropWhile_cons_of_pos (by simp)]
      rfl
    · rw [trimStart, dropWhile_cons_of_neg (by simpa using slash)]

theorem segments_eq (relPath : Str) : segments relPath = (comps relPath).foldlM pushPart [] := by
  rw [← comps_trimStart, comps, foldlM_filter, segments]
  congr 1
  funext segs part
  by_cases skip : (part.isEmpty || part == [DOT]) = true
  · rw [pushPart, if_pos skip, skip]
    rfl
  · have kept : (!(part.isEmpty || part == [DOT])) = true := by
      simpa using skip
    rw [if_pos kept]

theorem comps_relativePath (normal : Normal mount) (below : AtOrBelow mount path) :
    comps path = comps mount ++ inner path mount := by
  unfold inner relativePath
  by_cases root : mount = [SLASH]
  · rw [if_pos (by simp [root]), root]
    rfl
  · obtain ⟨rest, rfl⟩ := below.isPrefix
    have starts : mount.isPrefixOf (mount ++ rest) = true :=
      isPrefixOf_iff_prefix.mpr (prefix_append mount rest)
    rw [if_neg (by simpa using ⟨normal.ne_nil, root⟩), if_pos starts, drop_left]
    rw [AtOrBelow, if_neg root] at below
    cases rest with
    | nil =>
      rw [append_nil, isEmpty_nil, if_pos rfl, comps_slash]
      exact (append_nil _).symm
    | cons b rest =>
      obtain rfl : SLASH = b := by
        rcases below with same | ⟨more, longer⟩
        · simp at same
        · rw [append_assoc] at longer
          exact (List.cons.inj (append_cancel_left longer)).1
      rw [if_neg (by simp), comps_append, comps_slash]

theorem splitOn_render (proper : ∀ c ∈ cs, Proper c) (nonzero : cs ≠ []) :
    (render cs).splitOn SLASH = [] :: cs := by
  rw [render, if_neg nonzero]
  refine splitOn_intercalate SLASH ?_ (cons_ne_nil _ _)
  intro c mem
  cases mem_cons.mp mem with
  | inl empty => simp [empty]
  | inr inside => exact (proper c inside).slashFree

theorem comps_render (proper : ∀ c ∈ cs, Proper c) : comps (render cs) = cs := by
  by_cases none : cs = []
  · subst none
    rfl
  · rw [comps, splitOn_render proper none, filter_cons_of_neg (by simp)]
    refine filter_eq_self.mpr fun c mem => ?_
    simp [(proper c mem).nonempty, (proper c mem).notDot]

theorem mem_foldl_cancel (mem : c ∈ cs.foldl cancel stack) : c ∈ stack ∨ (c ∈ cs ∧ c ≠ DOTDOT) := by
  induction cs generalizing stack with
  | nil => exact .inl mem
  | cons d cs ih =>
    rcases ih mem with here | ⟨later, proper⟩
    · unfold cancel at here
      split at here
      · exact .inl (dropLast_subset _ here)
      · next differs =>
        cases mem_append.mp here with
        | inl old => exact .inl old
        | inr new =>
          cases mem_singleton.mp new
          exact .inr ⟨.head _, differs⟩
    · exact .inr ⟨.tail _ later, proper⟩

theorem proper_normalComps (path : Str) : ∀ c ∈ normalComps path, Proper c := by
  intro c mem
  rcases mem_foldl_cancel mem with none | ⟨inside, notDotDot⟩
  · exact absurd none not_mem_nil
  · obtain ⟨part, nonempty, notDot⟩ := mem_comps.mp inside
    exact ⟨nonempty, notDot, notDotDot, slash_notMem_splitOn path c part⟩

theorem foldl_cancel_proper (proper : ∀ c ∈ cs, Proper c) (stack : List Str) :
    cs.foldl cancel stack = stack ++ cs := by
  induction cs generalizing stack with
  | nil => rw [foldl_nil, append_nil]
  | cons c cs ih =>
    rw [foldl_cons, cancel, if_neg (proper c (.head _)).notDotDot,
      ih fun d mem => proper d (.tail _ mem), append_assoc]
    rfl

theorem mount_proper (normal : Normal mount) (proper : ∀ c ∈ cs, Proper c)
    (below : AtOrBelow mount (render cs)) : ∀ c ∈ comps mount, Proper c := by
  intro c mem
  refine proper c ?_
  rw [← comps_render proper, comps_relativePath normal below]
  exact mem_append_left _ mem

theorem mount_comps_ne_nil (normal : Normal mount) (proper : ∀ c ∈ cs, Proper c)
    (below : AtOrBelow mount (render cs)) (notRoot : mount ≠ [SLASH]) : comps mount ≠ [] := by
  have some : cs ≠ [] := by
    rintro rfl
    have short := below.isPrefix.length_le
    have nonempty := length_pos_iff.mpr normal.ne_nil
    exact notRoot (below.isPrefix.eq_of_length (Nat.le_antisymm short nonempty))
  have split := splitOn_render proper some
  -- the parts of the mount point are the empty one and then components
  have parts : ∃ front, mount.splitOn SLASH = [] :: front ∧ ∀ c ∈ front, c ∈ cs := by
    rw [AtOrBelow, if_neg notRoot] at below
    rcases below with same | ⟨rest, longer⟩
    · exact ⟨cs, same ▸ split, fun _ mem => mem⟩
    · rw [append_assoc, singleton_append] at longer
      rw [← longer, splitOn_append_cons_self] at split
      cases front : mount.splitOn SLASH with
      | nil => exact absurd front (splitOn_ne_nil _ _)
      | cons first front' =>
        rw [front, cons_append] at split
        obtain ⟨rfl, tail⟩ := List.cons.inj split
        exact ⟨front', rfl, fun c mem => tail ▸ mem_append_left _ mem⟩
  obtain ⟨front, cut, inside⟩ := parts
  intro none
  cases front with
  | nil =>
    have whole : [SLASH].intercalate (mount.splitOn SLASH) = mount := intercalate_splitOn SLASH
    rw [cut] at whole
    exact normal.ne_nil whole.symm
  | cons c front =>
    have here : c ∈ cs := inside c (.head _)
    have listed : c ∈ comps mount := mem_comps.mpr
      ⟨cut ▸ .tail _ (.head _), (proper c here).nonempty, (proper c here).notDot⟩
    exact absurd (none ▸ listed) not_mem_nil

end Components

/-- With `n` segments open, every `..` closes one of at least two, or is met at the
    very root, and there are never more segments than the code can hold. -/
def Steady (atRoot : Prop) : Nat → List Str → Prop
  | _, [] => True
  | n, c :: cs =>
    if c = DOTDOT then (2 ≤ n ∧ Steady atRoot (n - 1) cs) ∨ (n = 0 ∧ atRoot ∧ Steady atRoot 0 cs)
    else n < MAX_PATH_SEGMENTS ∧ Steady atRoot (n + 1) cs

/-- At some component the code holds as many segments as it can. -/
def Overflows : Nat → List Str → Prop
  | _, [] => False
  | n, c :: cs =>
    if c = DOTDOT then Overflows (if n = 1 then 1 else n - 1) cs
    else MAX_PATH_SEGMENTS ≤ n ∨ Overflows (n + 1) cs

section Stacks

variable {atRoot : Prop} {base segs stack : List Str} {cs : List Str} {c : Str} {segs' : List Str}

/-- A component is neither empty nor `.`. -/
def Component (c : Str) : Prop := c ≠ [] ∧ c ≠ [DOT]

theorem pushPart_dotDot : pushPart segs DOTDOT = some (if segs.length = 1 then segs else segs.dropLast) := rfl

theorem pushPart_name (component : Component c) (name : c ≠ DOTDOT) :
    pushPart segs c = if MAX_PATH_SEGMENTS ≤ segs.length then none else some (segs ++ [c]) := by
  have dotDot : ¬ (c == [DOT, DOT]) = true := fun same => name (beq_iff_eq.mp same)
  rw [pushPart, if_neg (by simpa [Component] using component), if_neg dotDot]

variable (components : ∀ c ∈ cs, Component c)

include components

theorem foldlM_none_iff : cs.foldlM pushPart segs = none ↔ Overflows segs.length cs := by
  induction cs generalizing segs with
  | nil => simp [Overflows]
  | cons c cs ih =>
    have rest : ∀ d ∈ cs, Component d := fun d mem => components d (.tail _ mem)
    rw [foldlM_cons, Overflows]
    by_cases up : c = DOTDOT
    · subst up
      rw [pushPart_dotDot, if_pos rfl, bind_eq_bind, bind_some, ih rest]
      split
      · next one => rw [one]
      · rw [length_dropLast]
    · rw [pushPart_name (components c (.head _)) up, if_neg up]
      split
      · next full => exact iff_of_true rfl (.inl full)
      · next room =>
        rw [bind_eq_bind, bind_some, ih rest, length_append, or_iff_right room]
        rfl

theorem foldlM_steady (root : atRoot → base = []) (steady : Steady atRoot segs.length cs) :
    ∃ segs', cs.foldlM pushPart segs = some segs' ∧ cs.foldl cancel (base ++ segs) = base ++ segs' := by
  induction cs generalizing segs with
  | nil => exact ⟨segs, rfl, rfl⟩
  | cons c cs ih =>
    have rest : ∀ d ∈ cs, Component d := fun d mem => components d (.tail _ mem)
    rw [Steady] at steady
    rw [foldlM_cons, foldl_cons, cancel]
    by_cases up : c = DOTDOT
    · subst up
      rw [pushPart_dotDot, if_pos rfl, bind_eq_bind, bind_some]
      rcases steady with ⟨two, steady⟩ | ⟨zero, atRoot, steady⟩
      · have some : segs ≠ [] := by
          rintro rfl
          simp at two
        rw [if_neg (by omega), dropLast_append_of_ne_nil some]
        exact ih rest (by rwa [length_dropLast])
      · cases length_eq_zero_iff.mp zero
        rw [root atRoot]
        have steps := @ih [] rest steady
        rwa [root atRoot] at steps
    · rw [if_neg up] at steady
      rw [pushPart_name (components c (.head _)) up, if_neg up,
        if_neg (Nat.not_le_of_lt steady.1), bind_eq_bind, bind_some,
        append_assoc]
      exact ih rest (by rw [length_append]; exact steady.2)

omit components

theorem pushPart_some (component : Component c) (push : pushPart segs c = some segs') :
    c = DOTDOT ∧ segs' = (if segs.length = 1 then segs else segs.dropLast) ∨
      c ≠ DOTDOT ∧ segs.length < MAX_PATH_SEGMENTS ∧ segs' = segs ++ [c] := by
  by_cases up : c = DOTDOT
  · subst up
    exact .inl ⟨rfl, (some.inj push).symm⟩
  · rw [pushPart_name component up] at push
    obtain ⟨room, same⟩ := (ite_none_left_eq_some ..).mp push
    exact .inr ⟨up, Nat.lt_of_not_le room, (some.inj same).symm⟩

theorem length_foldlM_le (components : ∀ c ∈ cs, Component c)
    (room : segs.length ≤ MAX_PATH_SEGMENTS) (run : cs.foldlM pushPart segs = some segs') :
    segs'.length ≤ MAX_PATH_SEGMENTS := by
  induction cs generalizing segs with
  | nil =>
    cases run
    exact room
  | cons c cs ih =>
    obtain ⟨mid, push, run⟩ := bind_eq_some_iff.mp run
    refine ih (fun d mem => components d (.tail _ mem)) ?_ run
    obtain ⟨-, rfl⟩ | ⟨-, free, rfl⟩ := pushPart_some (components c (.head _)) push
    · split
      · exact room
      · rw [length_dropLast]
        omega
    · rw [length_append, length_singleton]
      omega

theorem Proper.component (proper : Proper c) : Component c := ⟨proper.nonempty, proper.notDot⟩

theorem foldlM_proper (proper : ∀ c ∈ cs, Proper c) (room : segs.length ≤ MAX_PATH_SEGMENTS) :
    cs.foldlM pushPart segs =
      if segs.length + cs.length ≤ MAX_PATH_SEGMENTS then some (segs ++ cs) else none := by
  induction cs generalizing segs with
  | nil =>
    rw [length_nil, Nat.add_zero, if_pos room, append_nil]
    rfl
  | cons c cs ih =>
    have first := proper c (.head _)
    rw [foldlM_cons, pushPart_name first.component first.notDotDot, length_cons]
    split
    · next full =>
      rw [if_neg (by omega)]
      rfl
    · next free =>
      have longer : (segs ++ [c]).length = segs.length + 1 := length_append
      rw [bind_eq_bind, bind_some, ih (fun d mem => proper d (.tail _ mem)) (by omega), longer, append_assoc]
      exact if_congr (by omega) rfl rfl

include components

theorem ahead_foldlM {k : Nat}
    (ahead : stack.length < k + segs.length) (run : cs.foldlM pushPart segs = some segs') :
    (cs.foldl cancel stack).length < k + segs'.length := by
  induction cs generalizing segs stack with
  | nil =>
    cases run
    exact ahead
  | cons c cs ih =>
    obtain ⟨mid, push, run⟩ := bind_eq_some_iff.mp run
    refine ih (fun d mem => components d (.tail _ mem)) ?_ run
    rw [cancel]
    obtain ⟨rfl, rfl⟩ | ⟨name, -, rfl⟩ := pushPart_some (components c (.head _)) push
    · rw [if_pos rfl, length_dropLast]
      split
      · omega
      · rw [length_dropLast]
        omega
    · rw [if_neg name, length_append, length_append, length_singleton]
      omega

theorem ahead_of_unsteady (root : atRoot ↔ base = []) (unsteady : ¬ Steady atRoot segs.length cs)
    (run : cs.foldlM pushPart segs = some segs') :
    (cs.foldl cancel (base ++ segs)).length < base.length + segs'.length := by
  induction cs generalizing segs with
  | nil => exact absurd trivial unsteady
  | cons c cs ih =>
    have rest : ∀ d ∈ cs, Component d := fun d mem => components d (.tail _ mem)
    rw [Steady] at unsteady
    rw [foldlM_cons] at run
    rw [foldl_cons, cancel]
    by_cases up : c = DOTDOT
    · subst up
      rw [if_pos rfl] at unsteady ⊢
      rw [pushPart_dotDot, bind_eq_bind, bind_some] at run
      obtain ⟨deep, shallow⟩ := not_or.mp unsteady
      by_cases two : 2 ≤ segs.length
      · have some : segs ≠ [] := by
          rintro rfl
          simp at two
        rw [if_neg (by omega)] at run
        rw [dropLast_append_of_ne_nil some]
        refine ih rest ?_ run
        rw [length_dropLast]
        exact fun steady => deep ⟨two, steady⟩
      · by_cases one : segs.length = 1
        · rw [if_pos one] at run
          refine ahead_foldlM rest ?_ run
          rw [length_dropLast, length_append]
          omega
        · cases length_eq_zero_iff.mp (by omega : segs.length = 0)
          by_cases none : base = []
          · have later : ¬ Steady atRoot ([] : List Str).dropLast.length cs := fun steady =>
              shallow ⟨rfl, root.mpr none, steady⟩
            have steps := ih rest later run
            rwa [none] at steps ⊢
          · refine ahead_foldlM rest ?_ run
            have pos := length_pos_iff.mpr none
            rw [append_nil, length_dropLast]
            simp only [dropLast_nil, length_nil]
            omega
    · rw [if_neg up] at unsteady ⊢
      rw [pushPart_name (components c (.head _)) up] at run
      split at run
      · simp at run
      · next room =>
        rw [bind_eq_bind, bind_some] at run
        rw [append_assoc]
        refine ih rest ?_ run
        rw [length_append]
        exact fun steady => unsteady ⟨Nat.lt_of_not_le room, steady⟩

end Stacks

end Zenus.Fs
