import Mathlib
import Zenus.Lib.Run

/-! # The lock order checker

`lockdep_acquire` records which classes were held when a class was acquired and refuses
an acquisition whose reverse it has recorded.  It looks for a single reverse edge, so a
longer cycle is not noticed, and it pops its stack only for the class on top, so the
stack is what is held only while locks are released in the order of a stack.
-/

namespace Zenus.Sync

open Lib.Run Function List

def MAX_LOCKS : Nat := 64
def MAX_DEPTH : Nat := 8
def MAX_EDGES : Nat := 256
abbrev MAX_CPUS : Nat := 8

/-- The state while the checker is initialised and enabled; the stack of a CPU is the part
    of its array below its depth. -/
structure LockdepState where
  edges : List (Nat × Nat)
  perCpuStack : Fin MAX_CPUS → List Nat
  violations : Nat

/-- How the loop over the held classes ends. -/
inductive Scan where
  | already
  | reverse
  | clear
  deriving DecidableEq, Repr

/-- A pair is recorded once, while there is room. -/
def record (edges : List (Nat × Nat)) (edge : Nat × Nat) : List (Nat × Nat) :=
  if edge ∉ edges ∧ edges.length < MAX_EDGES then edges ++ [edge] else edges

def scan (lockId : Nat) : List Nat → List (Nat × Nat) → Scan × List (Nat × Nat)
  | [], edges => (.clear, edges)
  | held :: rest, edges =>
      if held = lockId then (.already, edges)
      else
        let edges := record edges (held, lockId)
        if (lockId, held) ∈ edges then (.reverse, edges) else scan lockId rest edges

namespace LockdepState

def lockdepAcquire (s : LockdepState) (cpu : Fin MAX_CPUS) (lockId : Nat) : Bool × LockdepState :=
  if lockId = 0 ∨ MAX_LOCKS < lockId then (true, s)
  else
    match scan lockId (s.perCpuStack cpu) s.edges with
    | (.already, edges) => (true, { s with edges := edges })
    | (.reverse, edges) => (false, { s with edges := edges, violations := s.violations + 1 })
    | (.clear, edges) =>
        if (s.perCpuStack cpu).length < MAX_DEPTH then
          (true, { s with edges := edges, perCpuStack := update s.perCpuStack cpu (s.perCpuStack cpu ++ [lockId]) })
        else (true, { s with edges := edges })

def lockdepRelease (s : LockdepState) (cpu : Fin MAX_CPUS) (lockId : Nat) : LockdepState :=
  if lockId = 0 ∨ MAX_LOCKS < lockId then s
  else if (s.perCpuStack cpu).getLast? = some lockId then
    { s with perCpuStack := update s.perCpuStack cpu (s.perCpuStack cpu).dropLast }
  else s

end LockdepState

/-! ## Histories -/

/-- The checker next to what it should know: the classes that each CPU holds, the pairs of
    a held and an acquired class, and whether an acquisition was refused. -/
structure LockRun where
  state : LockdepState
  held : Fin MAX_CPUS → List Nat
  observed : List (Nat × Nat)
  refused : Bool

inductive LockAct where
  | acquire (cpu : Fin MAX_CPUS) (lockId : Nat)
  | release (cpu : Fin MAX_CPUS) (lockId : Nat)
  deriving DecidableEq, Repr

namespace LockRun

def boot : LockRun := ⟨⟨[], fun _ => [], 0⟩, fun _ => [], [], false⟩

def step (r : LockRun) : LockAct → Option LockRun
  | .acquire cpu lockId =>
      some ⟨(r.state.lockdepAcquire cpu lockId).2, update r.held cpu (r.held cpu ++ [lockId]),
        r.observed ++ (r.held cpu).map (·, lockId), r.refused || !(r.state.lockdepAcquire cpu lockId).1⟩
  | .release cpu lockId =>
      some { r with
        state := r.state.lockdepRelease cpu lockId
        held := update r.held cpu ((r.held cpu).reverse.erase lockId).reverse }

/-- Classes, nesting and pairs stay within the arrays, no class is acquired twice, and the
    class acquired last is released first. -/
def nested (r : LockRun) : LockAct → Bool
  | .acquire cpu lockId =>
      0 < lockId && lockId ≤ MAX_LOCKS && lockId ∉ r.held cpu && (r.held cpu).length < MAX_DEPTH &&
        (r.observed ++ (r.held cpu).map (·, lockId)).toFinset.card ≤ MAX_EDGES
  | .release cpu lockId => 0 < lockId && lockId ≤ MAX_LOCKS && (r.held cpu).getLast? = some lockId

def Reversed (observed : List (Nat × Nat)) : Prop := ∃ a b, (a, b) ∈ observed ∧ (b, a) ∈ observed

/-- Some class was acquired, over other ones, while it was held. -/
def Cyclic (observed : List (Nat × Nat)) : Prop := ∃ a, Relation.TransGen (fun a b => (a, b) ∈ observed) a a

/-- The checker knows the stacks and the observed pairs. -/
structure InStep (r : LockRun) : Prop where
  perCpuStack : r.state.perCpuStack = r.held
  edges : ∀ p, p ∈ r.state.edges ↔ p ∈ r.observed
  nodup : r.state.edges.Nodup
  ordered : ¬ Reversed r.observed

variable {r r' : LockRun} {act : LockAct} {lockId : Nat} {held : List Nat} {edges observed : List (Nat × Nat)}

theorem record_spec (edge : Nat × Nat) {all : Finset (Nat × Nat)} (nodup : edges.Nodup)
    (known : ∀ p ∈ edges, p ∈ all) (inside : edge ∈ all) (room : all.card ≤ MAX_EDGES) :
    (record edges edge).Nodup ∧ ∀ p, p ∈ record edges edge ↔ p ∈ edges ∨ p = edge := by
  unfold record
  by_cases old : edge ∈ edges
  · rw [if_neg fun both => both.1 old]
    exact ⟨nodup, fun p => ⟨.inl, fun either => either.elim id fun same => same ▸ old⟩⟩
  · have more : (edges ++ [edge]).Nodup := nodup_append.mpr ⟨nodup, by simp, by grind⟩
    have few : (edges ++ [edge]).length ≤ MAX_EDGES := by
      rw [← toFinset_card_of_nodup more]
      refine (Finset.card_le_card fun p member => ?_).trans room
      simp only [mem_toFinset, mem_append, mem_singleton] at member
      exact member.elim (known p) fun same => same ▸ inside
    rw [length_append] at few
    rw [if_pos ⟨old, few⟩]
    exact ⟨more, by simp⟩

theorem scan_spec (new : lockId ∉ held) (same : ∀ p, p ∈ edges ↔ p ∈ observed) (nodup : edges.Nodup)
    (room : (observed ++ held.map (·, lockId)).toFinset.card ≤ MAX_EDGES) :
    (∃ edges', scan lockId held edges = (.clear, edges') ∧ edges'.Nodup ∧
        (∀ p, p ∈ edges' ↔ p ∈ observed ++ held.map (·, lockId)) ∧ ∀ h ∈ held, (lockId, h) ∉ observed) ∨
      ∃ edges', scan lockId held edges = (.reverse, edges') ∧ ∃ h ∈ held, (lockId, h) ∈ observed := by
  induction held generalizing edges observed with
  | nil => exact .inl ⟨edges, rfl, nodup, by simpa using same, by simp⟩
  | cons h rest ih =>
    obtain ⟨other, later⟩ : lockId ≠ h ∧ lockId ∉ rest := by simpa using new
    rw [map_cons, append_cons] at room ⊢
    obtain ⟨nodup₁, same₁⟩ := record_spec (h, lockId) nodup
      (fun p member => by simp [(same p).mp member]) (by simp) room
    have same₁ : ∀ p, p ∈ record edges (h, lockId) ↔ p ∈ observed ++ [(h, lockId)] := by simpa [same] using same₁
    have proper : ∀ x, (lockId, x) ∈ observed ++ [(h, lockId)] ↔ (lockId, x) ∈ observed := by
      simp [other]
    simp only [scan, if_neg (Ne.symm other), same₁, proper]
    split_ifs with back
    · exact .inr ⟨_, rfl, h, by simp, back⟩
    · rcases ih later same₁ nodup₁ room with ⟨edges', ran, ok, all, clear⟩ | ⟨edges', ran, h', inside, back'⟩
      · simp only [proper] at clear
        exact .inl ⟨edges', ran, ok, all, forall_mem_cons.mpr ⟨back, clear⟩⟩
      · exact .inr ⟨edges', ran, h', .tail _ inside, (proper h').mp back'⟩

theorem InStep.step (inStep : r.InStep) (legal : r.nested act = true) (stepped : r.step act = some r') :
    (r'.refused = r.refused ∧ r'.InStep) ∨ (r'.refused = true ∧ Reversed r'.observed) := by
  cases act with
  | acquire cpu lockId =>
    simp only [nested, Bool.and_eq_true, decide_eq_true_eq] at legal
    obtain ⟨⟨⟨⟨positive, known⟩, new⟩, shallow⟩, room⟩ := legal
    have checked : ¬ (lockId = 0 ∨ MAX_LOCKS < lockId) := by omega
    rcases scan_spec new inStep.edges inStep.nodup room with
      ⟨edges', ran, nodup, all, clear⟩ | ⟨edges', ran, h, inside, back⟩
    · have done : r.state.lockdepAcquire cpu lockId = (true, { r.state with
          edges := edges', perCpuStack := update r.held cpu (r.held cpu ++ [lockId]) }) := by
        rw [LockdepState.lockdepAcquire, if_neg checked, inStep.perCpuStack, ran]
        exact if_pos shallow
      rw [LockRun.step, done] at stepped
      cases stepped
      refine .inl ⟨Bool.or_false _, rfl, all, nodup, ?_⟩
      rintro ⟨a, b, one, two⟩
      have ordered := fun one two => inStep.ordered ⟨a, b, one, two⟩
      simp only [mem_append, mem_map, Prod.mk.injEq] at one two
      grind
    · have done : (r.state.lockdepAcquire cpu lockId).1 = false := by
        rw [LockdepState.lockdepAcquire, if_neg checked, inStep.perCpuStack, ran]
      rw [LockRun.step, Option.some.injEq] at stepped
      subst stepped
      refine .inr ⟨?_, lockId, h, mem_append_left _ back, mem_append_right _ ?_⟩
      · simp [done]
      · exact mem_map.mpr ⟨h, inside, rfl⟩
  | release cpu lockId =>
    simp only [nested, Bool.and_eq_true, decide_eq_true_eq] at legal
    obtain ⟨⟨positive, known⟩, last⟩ := legal
    have checked : ¬ (lockId = 0 ∨ MAX_LOCKS < lockId) := by omega
    rw [LockRun.step, LockdepState.lockdepRelease, if_neg checked, inStep.perCpuStack, if_pos last] at stepped
    cases stepped
    obtain ⟨before, here⟩ := getLast?_eq_some_iff.mp last
    exact .inl ⟨rfl, by simp [here], inStep.edges, inStep.nodup, inStep.ordered⟩

/-- In every history within the limits in which locks are released in the order of a stack
    and no class is acquired twice: an acquisition is refused if and only if two classes
    were acquired in both orders, so cycles are found exactly where they hold such a pair,
    and until then the stacks are what the CPUs hold. -/
theorem refused_iff_reversed {acts : List LockAct} (legal : Along step (fun r act => r.nested act = true) acts boot)
    (run : exec step acts boot = some r) :
    (r.refused = true ↔ Reversed r.observed) ∧
      ((Cyclic r.observed → r.refused = true) ↔ (Cyclic r.observed → Reversed r.observed)) ∧
      (r.refused = false → ∀ cpu, r.state.perCpuStack cpu = r.held cpu) := by
  have start : boot.InStep := ⟨rfl, by simp [boot], nodup_nil, by simp [Reversed, boot]⟩
  have inv := invariant_along (fun r => (r.refused = false ∧ r.InStep) ∨ (r.refused = true ∧ Reversed r.observed))
    ?_ (.inl ⟨rfl, start⟩) legal run
  · have found : r.refused = true ↔ Reversed r.observed := by
      rcases inv with ⟨calm, inStep⟩ | ⟨refused, reversed⟩
      · exact iff_of_false (by simp [calm]) inStep.ordered
      · exact iff_of_true refused reversed
    refine ⟨found, forall_congr' fun _ => found, fun calm cpu => ?_⟩
    rcases inv with ⟨-, inStep⟩ | ⟨refused, -⟩
    · rw [inStep.perCpuStack]
    · simp [refused] at calm
  · rintro r act r' (⟨calm, inStep⟩ | ⟨refused, a, b, one, two⟩) legal stepped
    · rcases inStep.step legal stepped with ⟨same, after⟩ | refused
      · exact .inl ⟨same.trans calm, after⟩
      · exact .inr refused
    · -- refusals and observations are never taken back
      right
      cases act with
      | acquire cpu lockId =>
        rw [step, Option.some.injEq] at stepped
        subst stepped
        exact ⟨by simp [refused], a, b, mem_append_left _ one, mem_append_left _ two⟩
      | release cpu lockId =>
        cases stepped
        exact ⟨refused, a, b, one, two⟩

theorem refused_both_orders :
    let acts := [.acquire 0 1, .acquire 0 2, .release 0 2, .release 0 1, .acquire 1 2, .acquire 1 1]
    ∃ r, exec step acts boot = some r ∧ r.refused = true ∧ Reversed r.observed := by
  intro acts
  obtain ⟨r, run, refused⟩ : ∃ r, exec step acts boot = some r ∧ r.refused = true := by
    have := show (exec step acts boot).map (·.refused) = some true by decide +kernel
    exact Option.map_eq_some_iff.mp this
  exact ⟨r, run, refused, (refused_iff_reversed (by decide +kernel) run).1.mp refused⟩

/-- Three classes in a circle are acquired without a refusal, and a class that is released
    before the one acquired after it stays on the stack. -/
theorem circle_unnoticed :
    let circle := [.acquire 0 1, .acquire 0 2, .release 0 2, .release 0 1, .acquire 0 2, .acquire 0 3, .release 0 3,
      .release 0 2, .acquire 0 3, .acquire 0 1]
    ((exec step circle boot).map fun r => (r.refused, r.observed)) = some (false, [(1, 2), (2, 3), (3, 1)]) ∧
      Cyclic [(1, 2), (2, 3), (3, 1)] ∧
      ((exec step [.acquire 0 1, .acquire 0 2, .release 0 1] boot).map fun r =>
        (r.state.perCpuStack 0, r.held 0)) = some ([1, 2], [2]) := by
  refine ⟨by decide +kernel, ⟨1, ?_⟩, by decide +kernel⟩
  exact ((Relation.TransGen.single (by decide)).tail (b := 2) (by decide)).tail (b := 3) (by decide)

end LockRun

end Zenus.Sync
