import Mathlib.Data.Set.Basic

/-! # Write-back caches

A cache holds lines in slots: a key, a value and whether the value still has to
be written to the backing store.  It is coherent with a map `A` when reading
through it gives `A`; writing a line out, loading a key, and dropping a clean line
keep that map, and storing into a line changes it at that line's key.
-/

namespace Lib.WriteBack

open Function

variable {I K V : Type*}

structure Line (K V : Type*) where
  key : K
  value : V
  dirty : Bool

structure Cache (I K V : Type*) where
  lines : I → Option (Line K V)
  back : K → V

/-- Reading through the cache gives `A`: no key has two lines, every line holds
    the value of its key, and a key without a dirty line is right in the store. -/
structure Coherent (c : Cache I K V) (A : K → V) : Prop where
  unique : ∀ i j a b, c.lines i = some a → c.lines j = some b → a.key = b.key → i = j
  cached : ∀ i a, c.lines i = some a → a.value = A a.key
  stored : ∀ k, (∀ i a, c.lines i = some a → a.key = k → a.dirty = false) → c.back k = A k

/-- The keys whose newest value is only in the cache. -/
def Cache.pending (c : Cache I K V) : Set K :=
  {k | ∃ i a, c.lines i = some a ∧ a.key = k ∧ a.dirty = true}

def Cache.Absent (c : Cache I K V) (k : K) : Prop := ∀ i a, c.lines i = some a → a.key ≠ k

/-- The line in slot `i`, if there is one, needs no writing. -/
def Cache.Settled (c : Cache I K V) (i : I) : Prop := ∀ a, c.lines i = some a → a.dirty = false

variable [DecidableEq I]

/-- Put a line, or nothing, in slot `i`. -/
def Cache.put (c : Cache I K V) (i : I) (line : Option (Line K V)) : Cache I K V :=
  { c with lines := update c.lines i line }

/-- Replace slot `i` by a clean line for `k`, read from the store. -/
def Cache.load (c : Cache I K V) (i : I) (k : K) : Cache I K V :=
  c.put i (some ⟨k, c.back k, false⟩)

/-- Write the line of slot `i` to the store, if it is dirty. -/
def Cache.writeOut [DecidableEq K] (c : Cache I K V) (i : I) : Cache I K V :=
  match c.lines i with
  | some a =>
    if a.dirty then
      ⟨update c.lines i (some { a with dirty := false }),
        update c.back a.key a.value⟩
    else c
  | none => c

variable {c : Cache I K V} {A A' : K → V} {i j : I} {a : Line K V} {line : Option (Line K V)}

theorem put_lines_self (line : Option (Line K V)) : (c.put i line).lines i = line := by
  simp [Cache.put]

theorem put_lines_of_ne (line : Option (Line K V)) (other : j ≠ i) : (c.put i line).lines j = c.lines j := by
  simp [Cache.put, update_of_ne other]

theorem put_lines_cases
    (found : (c.put i line).lines j = some a) : (j = i ∧ line = some a) ∨ (j ≠ i ∧ c.lines j = some a) := by
  by_cases same : j = i
  · subst same
    exact .inl ⟨rfl, (put_lines_self line).symm.trans found⟩
  · exact .inr ⟨same, (put_lines_of_ne line same).symm.trans found⟩

variable (coherent : Coherent c A) {k : K}

include coherent

/-- A line can be put in a slot if it holds the value of a key that no other line has. -/
theorem Coherent.put
    (fresh : ∀ a, line = some a → a.value = A' a.key ∧ ∀ j b, j ≠ i → c.lines j = some b → b.key ≠ a.key)
    (others : ∀ j b, j ≠ i → c.lines j = some b → A b.key = A' b.key)
    (stored : ∀ k, (∀ j a, (c.put i line).lines j = some a → a.key = k → a.dirty = false) → c.back k = A' k) :
    Coherent (c.put i line) A' where
  unique := by
    intro j j' a b first second same
    obtain ⟨rfl, new⟩ | ⟨away, old⟩ := put_lines_cases first
    · obtain ⟨rfl, _⟩ | ⟨away, second⟩ := put_lines_cases second
      · rfl
      · exact absurd same.symm ((fresh a new).2 j' b away second)
    · obtain ⟨rfl, new⟩ | ⟨_, second⟩ := put_lines_cases second
      · exact absurd same ((fresh b new).2 j a away old)
      · exact coherent.unique j j' a b old second same
  cached := by
    intro j a found
    obtain ⟨_, new⟩ | ⟨away, found⟩ := put_lines_cases found
    · exact (fresh a new).1
    · exact (coherent.cached j a found).trans (others j a away found)
  stored := stored

theorem Coherent.stored_put (settled : c.Settled i) (k : K)
    (clean : ∀ j a, (c.put i line).lines j = some a → a.key = k → a.dirty = false) : c.back k = A k := by
  apply coherent.stored k
  intro j a found same
  by_cases here : j = i
  · subst here
    exact settled a found
  · exact clean j a ((put_lines_of_ne _ here).trans found) same

theorem Coherent.drop (settled : c.Settled i) : Coherent (c.put i none) A :=
  coherent.put (fun _ no => by cases no) (fun _ _ _ _ => rfl) (coherent.stored_put settled)

theorem Coherent.load (settled : c.Settled i) (absent : c.Absent k) : Coherent (c.load i k) A := by
  refine coherent.put ?_ (fun _ _ _ _ => rfl) (coherent.stored_put settled)
  rintro _ ⟨⟩
  exact ⟨coherent.stored k fun j b found same => absurd same (absent j b found), fun j b _ => absent j b⟩

theorem Coherent.store [DecidableEq K] (found : c.lines i = some a) (v : V) :
    Coherent (c.put i (some ⟨a.key, v, true⟩)) (update A a.key v) := by
  have apart : ∀ j b, j ≠ i → c.lines j = some b → b.key ≠ a.key :=
    fun j b away other same => away (coherent.unique j i b a other found same)
  refine coherent.put ?_ (fun j b away other => (update_of_ne (apart j b away other) _ _).symm) ?_
  · rintro _ ⟨⟩
    exact ⟨(update_self a.key v A).symm, apart⟩
  · intro k clean
    have other : k ≠ a.key := by
      rintro rfl
      cases clean i _ (put_lines_self _) rfl
    rw [update_of_ne other]
    apply coherent.stored k
    intro j b here same
    refine clean j b ((put_lines_of_ne _ ?_).trans here) same
    rintro rfl
    cases found.symm.trans here
    exact other same.symm

omit coherent

section WriteOut

variable [DecidableEq K]

theorem writeOut_of_settled (settled : c.Settled i) : c.writeOut i = c := by
  unfold Cache.writeOut
  split
  · next a found => rw [settled a found]; rfl
  · rfl

theorem writeOut_of_dirty (found : c.lines i = some a) (dirty : a.dirty = true) :
    c.writeOut i = { c.put i (some { a with dirty := false }) with
      back := update c.back a.key a.value } := by
  simp [Cache.writeOut, found, dirty, Cache.put]

/-- What a slot holds after a line was written out: the line it held, clean if it
    is the one written. -/
theorem writeOut_lines_cases (found : (c.writeOut i).lines j = some a) :
    ∃ b, c.lines j = some b ∧ b.key = a.key ∧ b.value = a.value ∧
      (a.dirty = true → b.dirty = true ∧ j ≠ i) := by
  by_cases settled : c.Settled i
  · rw [writeOut_of_settled settled] at found
    refine ⟨a, found, rfl, rfl, fun dirty => ⟨dirty, ?_⟩⟩
    rintro rfl
    exact absurd (settled a found) (by simp [dirty])
  · simp only [Cache.Settled, not_forall] at settled
    obtain ⟨b, here, dirty⟩ := settled
    rw [writeOut_of_dirty here (by simpa using dirty)] at found
    obtain ⟨rfl, new⟩ | ⟨other, found⟩ := put_lines_cases found
    · cases new
      exact ⟨b, here, rfl, rfl, fun bad => absurd bad (by simp)⟩
    · exact ⟨a, found, rfl, rfl, fun still => ⟨still, other⟩⟩

theorem writeOut_settled (c : Cache I K V) (i : I) : (c.writeOut i).Settled i := by
  intro a found
  obtain ⟨_, _, _, _, still⟩ := writeOut_lines_cases found
  exact Bool.eq_false_iff.mpr fun dirty => (still dirty).2 rfl

theorem writeOut_absent (absent : c.Absent k) : (c.writeOut i).Absent k := by
  intro j a found same
  obtain ⟨b, old, key, _⟩ := writeOut_lines_cases found
  exact absent j b old (key.trans same)

/-- A written-out line leaves the other keys' stored values, and sets its own key
    to the map's value. -/
theorem Coherent.writeOut_back (coherent : Coherent c A) (k : K) :
    (c.writeOut i).back k = c.back k ∨ (k ∈ c.pending ∧ (c.writeOut i).back k = A k) := by
  by_cases settled : c.Settled i
  · rw [writeOut_of_settled settled]
    exact .inl rfl
  · simp only [Cache.Settled, not_forall] at settled
    obtain ⟨a, here, dirty⟩ := settled
    have dirty : a.dirty = true := by simpa using dirty
    rw [writeOut_of_dirty here dirty]
    by_cases same : k = a.key
    · subst same
      refine .inr ⟨⟨i, a, here, rfl, dirty⟩, ?_⟩
      exact (update_self a.key a.value c.back).trans (coherent.cached i a here)
    · exact .inl (update_of_ne same _ _)

theorem Coherent.writeOut (coherent : Coherent c A) (i : I) : Coherent (c.writeOut i) A where
  unique := by
    intro j j' a b first second same
    obtain ⟨a', first, keyA, _⟩ := writeOut_lines_cases first
    obtain ⟨b', second, keyB, _⟩ := writeOut_lines_cases second
    exact coherent.unique j j' a' b' first second (keyA.trans (same.trans keyB.symm))
  cached := by
    intro j a found
    obtain ⟨b, old, key, value, _⟩ := writeOut_lines_cases found
    rw [← key, ← value]
    exact coherent.cached j b old
  stored := by
    intro k clean
    by_cases settled : c.Settled i
    · rw [writeOut_of_settled settled] at clean ⊢
      exact coherent.stored k clean
    simp only [Cache.Settled, not_forall] at settled
    obtain ⟨a, here, dirty⟩ := settled
    have dirty : a.dirty = true := by simpa using dirty
    rw [writeOut_of_dirty here dirty] at clean ⊢
    by_cases same : k = a.key
    · subst same
      exact (update_self a.key a.value c.back).trans (coherent.cached i a here)
    · refine (update_of_ne same _ _).trans (coherent.stored k fun j b found key => ?_)
      refine clean j b ((put_lines_of_ne _ ?_).trans found) key
      rintro rfl
      cases here.symm.trans found
      exact same key.symm

theorem pending_writeOut : (c.writeOut i).pending ⊆ c.pending := by
  rintro k ⟨j, a, found, rfl, dirty⟩
  obtain ⟨b, old, key, _, still⟩ := writeOut_lines_cases found
  exact ⟨j, b, old, key, (still dirty).1⟩

end WriteOut

theorem pending_load : (c.load i k).pending ⊆ c.pending := by
  rintro k' ⟨j, a, found, rfl, dirty⟩
  obtain ⟨_, new⟩ | ⟨_, old⟩ := put_lines_cases found
  · cases new
    simp at dirty
  · exact ⟨j, a, old, rfl, dirty⟩

theorem pending_put {line : Line K V} : (c.put i (some line)).pending ⊆ insert line.key c.pending := by
  rintro k ⟨j, a, found, rfl, dirty⟩
  obtain ⟨_, new⟩ | ⟨_, old⟩ := put_lines_cases found
  · cases new
    exact .inl rfl
  · exact .inr ⟨j, a, old, rfl, dirty⟩

theorem pending_drop : (c.put i none).pending ⊆ c.pending := by
  rintro k ⟨j, a, found, rfl, dirty⟩
  obtain ⟨_, new⟩ | ⟨_, old⟩ := put_lines_cases found
  · simp at new
  · exact ⟨j, a, old, rfl, dirty⟩

end Lib.WriteBack
