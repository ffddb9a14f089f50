import Zenus.Lib.Word

/-! # Sleeping

`nanosleep_deadline` turns a request into a tick of the clock.  The nanoseconds are cut to
milliseconds before the ticks are rounded up, and the sums saturate: some sleeps are short.
-/

namespace Zenus.Sys

open Lib.Word

def TICKS_PER_SEC : Nat := 100

def NSEC_PER_SEC : Nat := 1000000000

def NSEC_PER_TICK : Nat := NSEC_PER_SEC / TICKS_PER_SEC

/-- `u64::saturating_mul` -/
def satMul (a b : Nat) : Nat := min (a * b) (WORD - 1)

def nanosleepDeadline (now sec nsec : Nat) : Option Nat :=
  if NSEC_PER_SEC ≤ nsec then none
  else
    let ms := satAdd (satMul sec 1000) (nsec / 1000000)
    let ticks := satAdd (satMul ms TICKS_PER_SEC) 999 / 1000
    checkedAdd now ticks

def requested (sec nsec : Nat) : Nat := sec * NSEC_PER_SEC + nsec

/-- The first tick at which the time is over. -/
def exactDeadline (now sec nsec : Nat) : Nat :=
  now + (requested sec nsec + (NSEC_PER_TICK - 1)) / NSEC_PER_TICK

/-- The milliseconds do not saturate, and the tick that they begin covers what was cut. -/
def TickCovers (sec nsec : Nat) : Prop :=
  sec * 1000 + nsec / 1000000 ≤ 10 * (WORD / 1000) ∧
    (nsec % 1000000 = 0 ∨ (sec * 1000 + nsec / 1000000) % 10 ≠ 0)

/-- The ticks of a request, with the milliseconds rounded up; they saturate. -/
def ticksOf (sec nsec : Nat) : Nat := min ((sec * 1000 + nsec / 1000000 + 9) / 10) (WORD / 1000)

theorem nanosleepDeadline_eq {nsec : Nat} (now sec : Nat) (valid : nsec < NSEC_PER_SEC) :
    nanosleepDeadline now sec nsec = checkedAdd now (ticksOf sec nsec) := by
  rw [nanosleepDeadline, if_neg (Nat.not_le.mpr valid)]
  refine congrArg (checkedAdd now) ?_
  simp only [satAdd, satMul, TICKS_PER_SEC, ticksOf, WORD_eq]
  omega

/-- A deadline is refused only if the exact one does not fit, and no sleep is short if and
    only if the deadline does not fit or the ticks cover the request. -/
theorem nanosleep_never_short_iff (now sec nsec : Nat) (valid : nsec < NSEC_PER_SEC) :
    (nanosleepDeadline now sec nsec = none → WORD ≤ exactDeadline now sec nsec) ∧
      ((∀ d, nanosleepDeadline now sec nsec = some d → requested sec nsec ≤ (d - now) * NSEC_PER_TICK) ↔
        WORD ≤ now + ticksOf sec nsec ∨ TickCovers sec nsec) := by
  rw [nanosleepDeadline_eq now sec valid]
  simp only [exactDeadline, requested, TickCovers, NSEC_PER_TICK, NSEC_PER_SEC, TICKS_PER_SEC, checkedAdd, ticksOf,
    WORD_eq] at valid ⊢
  split
  · simp only [Option.some.injEq, forall_eq', reduceCtorEq, false_implies, true_and]
    omega
  · simp only [reduceCtorEq, false_implies, implies_true, true_iff]
    omega

theorem nanosleep_second : requested 1 0 ≤ (105 - 5) * NSEC_PER_TICK :=
  (nanosleep_never_short_iff 5 1 0 (by decide)).2.mpr (.inr (by unfold TickCovers; decide +kernel)) 105
    (by decide +kernel)

/-- One nanosecond is no time at all. -/
theorem nanosleep_short : nanosleepDeadline 0 0 1 = some 0 ∧ ¬ requested 0 1 ≤ (0 - 0) * NSEC_PER_TICK := by
  decide +kernel

end Zenus.Sys
