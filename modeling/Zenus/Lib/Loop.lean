import Mathlib.Logic.Basic

/-! # Counting loops that may stop early

`upTo body n` runs `body 0`, ..., `body (n - 1)` on a state.  A body returns `true`
to go on and `false` to leave the loop and the function around it; `none` is a
panic.
-/

namespace Lib.Loop

variable {σ : Type*}

def upTo (body : Nat → σ → Option (Bool × σ)) : Nat → σ → Option (Bool × σ)
  | 0, s => some (true, s)
  | n + 1, s =>
    match upTo body n s with
    | some (true, s') => body n s'
    | other => other

variable {body : Nat → σ → Option (Bool × σ)} {n : Nat} {P : Nat → σ → Prop}

/-- Partial correctness: `P i` holds before round `i`, and `Q` where the loop is
    left early. -/
theorem upTo_outcome {Q : σ → Prop} (round : ∀ i < n, ∀ s s' ok, P i s → body i s = some (ok, s') →
      (ok = true → P (i + 1) s') ∧ (ok = false → Q s')) :
    ∀ {s s' : σ} {ok : Bool}, P 0 s → upTo body n s = some (ok, s') →
      (ok = true → P n s') ∧ (ok = false → Q s') := by
  induction n with
  | zero =>
    intro s s' ok start run
    cases run
    exact ⟨fun _ => start, by simp⟩
  | succ n ih =>
    intro s s' ok start run
    have before : ∀ s'' ok', upTo body n s = some (ok', s'') →
        (ok' = true → P n s'') ∧ (ok' = false → Q s'') := fun _ _ =>
      ih (fun i inside => round i (Nat.lt_succ_of_lt inside)) start
    simp only [upTo] at run
    split at run
    · next t reached =>
      exact round n (Nat.lt_succ_self n) t s' ok ((before t true reached).1 rfl) run
    · next other =>
      cases ok with
      | true => exact absurd run (other s')
      | false => exact ⟨fun yes => Bool.noConfusion yes, fun _ => (before s' false run).2 rfl⟩

/-- Total correctness: a loop whose rounds each spend `cost i` of a budget runs to
    its end when the budget covers their sum. -/
theorem upTo_budget (budget : σ → Nat → Prop) (cost total : Nat → Nat)
    (nothing : total 0 = 0) (sum : ∀ i, total (i + 1) = total i + cost i)
    (round : ∀ i < n, ∀ s k, P i s → budget s (cost i + k) →
      ∃ s', body i s = some (true, s') ∧ P (i + 1) s' ∧ budget s' k) :
    ∀ {s : σ} {k : Nat}, P 0 s → budget s (total n + k) →
      ∃ s', upTo body n s = some (true, s') ∧ P n s' ∧ budget s' k := by
  induction n with
  | zero =>
    intro s k start enough
    rw [nothing, Nat.zero_add] at enough
    exact ⟨s, rfl, start, enough⟩
  | succ n ih =>
    intro s k start enough
    rw [sum, Nat.add_assoc] at enough
    obtain ⟨t, run, reached, left⟩ :=
      ih (fun i inside => round i (Nat.lt_succ_of_lt inside)) start enough
    obtain ⟨s', last, done, rest⟩ := round n (Nat.lt_succ_self n) t k reached left
    refine ⟨s', ?_, done, rest⟩
    simp only [upTo, run]
    exact last

-- the loops of a program have concrete bounds, and unrolling one is never the way to a proof
attribute [irreducible] upTo

end Lib.Loop
