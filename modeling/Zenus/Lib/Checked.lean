import Zenus.Lib.Word

/-! # Arithmetic that can fault

64-bit arithmetic with the checks of a debug build.  A result that does not fit, a
division by zero, a shift by the width or more and a slice out of range are faults.
-/

namespace Lib.Checked

open Lib.Word List

inductive Fault where
  | overflow
  | shift
  | division
  | slice
  deriving DecidableEq, Repr

abbrev Outcome (α : Type) := Except Fault α

/-- The value, if the condition of the operation is met. -/
def check {α : Type} (cond : Prop) [Decidable cond] (fault : Fault) (v : α) : Outcome α :=
  if cond then .ok v else .error fault

def cadd (a b : Nat) : Outcome Nat := check (a + b < WORD) .overflow (a + b)
def csub (a b : Nat) : Outcome Nat := check (b ≤ a) .overflow (a - b)
def cmul (a b : Nat) : Outcome Nat := check (a * b < WORD) .overflow (a * b)
def cdiv (a b : Nat) : Outcome Nat := check (b ≠ 0) .division (a / b)
def crem (a b : Nat) : Outcome Nat := check (b ≠ 0) .division (a % b)
def cdivCeil (a b : Nat) : Outcome Nat := check (b ≠ 0) .division ((a + b - 1) / b)
def cshl (a k : Nat) : Outcome Nat := check (k < 64) .shift ((a <<< k) % WORD)

/-- The bounds check of `buf[start..stop]`, for a buffer of `len` bytes. -/
def cslice (start stop len : Nat) : Outcome Unit := check (start ≤ stop ∧ stop ≤ len) .slice ()

/-- The bounds check of `buf[i]`. -/
def cindex (i len : Nat) : Outcome Unit := check (i < len) .slice ()

def Safe {α : Type} (x : Outcome α) : Prop := ∃ v, x = .ok v

def faultOf {α : Type} : Outcome α → Option Fault
  | .ok _ => none
  | .error fault => some fault

section Rules

variable {α β : Type} {cond prop : Prop} [Decidable cond] {fault : Fault} {v : α} {x : Outcome α}
  {next : α → Outcome β}

theorem ok_bind (v : α) (next : α → Outcome β) : (Except.ok v >>= next) = next v := rfl

theorem check_ok (met : cond) : check cond fault v = .ok v := if_pos met

theorem safe_ok (v : α) : Safe (.ok v) := ⟨v, rfl⟩

theorem not_safe_of_faultOf (ends : faultOf x = some fault) : ¬ Safe x := by
  rintro ⟨v, rfl⟩
  exact nomatch ends

theorem safe_bind_ok (done : x = .ok v) : Safe (x >>= next) ↔ Safe (next v) := by
  rw [done]
  rfl

theorem not_safe_error (fault : Fault) (next : α → Outcome β) : ¬ Safe (.error fault >>= next) := by
  rintro ⟨v, done⟩
  exact nomatch done

theorem safe_bind_check : Safe (check cond fault v >>= next) ↔ cond ∧ Safe (next v) := by
  by_cases met : cond
  · rw [safe_bind_ok (check_ok met)]
    exact ⟨fun safe => ⟨met, safe⟩, fun both => both.2⟩
  · rw [check, if_neg met]
    exact ⟨fun safe => absurd safe (not_safe_error fault next), fun both => absurd both.1 met⟩

theorem safe_bind_const (each : ∀ v, Safe (next v) ↔ prop) : Safe (x >>= next) ↔ Safe x ∧ prop := by
  cases x with
  | error fault =>
    refine ⟨fun safe => absurd safe (not_safe_error fault next), ?_⟩
    rintro ⟨⟨v, wrong⟩, _⟩
    exact nomatch wrong
  | ok v =>
    rw [safe_bind_ok rfl, each v]
    exact (and_iff_right (safe_ok v)).symm

end Rules

theorem safe_foldlM {σ α : Type} {round : σ → α → Outcome σ} {items : List α} (cond : α → Prop)
    (each : ∀ s, ∀ a ∈ items, Safe (round s a) ↔ cond a) (s : σ) :
    Safe (items.foldlM round s) ↔ ∀ a ∈ items, cond a := by
  induction items generalizing s with
  | nil => exact ⟨fun _ a listed => absurd listed (by simp), fun _ => safe_ok s⟩
  | cons a rest ih =>
    rw [foldlM_cons, forall_mem_cons]
    have tail := ih fun s b listed => each s b (mem_cons_of_mem a listed)
    have head := each s a (mem_cons_self ..)
    cases here : round s a with
    | error fault =>
      have unmet : ¬ cond a := fun met => by
        obtain ⟨s', done⟩ := head.mpr met
        exact nomatch here.symm.trans done
      exact ⟨fun safe => absurd safe (not_safe_error fault _), fun both => absurd both.1 unmet⟩
    | ok s' =>
      have met : cond a := head.mp ⟨s', here⟩
      rw [safe_bind_ok rfl, tail s']
      exact ⟨fun others => ⟨met, others⟩, fun both => both.2⟩

end Lib.Checked
