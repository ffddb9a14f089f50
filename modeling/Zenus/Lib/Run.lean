import Mathlib.Data.List.Basic

/-! # Runs of a labelled step function

A system is given by `step : σ → α → Option σ`: a label is executed in a state,
and `none` means the label is not enabled there (or that the program stopped).
Safety over whole runs is reduced once and for all to what a single step keeps.
-/

namespace Lib.Run

variable {σ α : Type*}

/-- Execute the labels in order; a refused label ends the run. -/
def exec (step : σ → α → Option σ) : List α → σ → Option σ
  | [], s => some s
  | a :: rest, s =>
    match step s a with
    | some s' => exec step rest s'
    | none => none

/-- Every step of the run meets `cond` in the state it starts from. -/
def Along (step : σ → α → Option σ) (cond : σ → α → Prop) : List α → σ → Prop
  | [], _ => True
  | a :: rest, s => cond s a ∧ ∀ s', step s a = some s' → Along step cond rest s'

/-- The property holds in the first state and in every state the run reaches. -/
def Always (step : σ → α → Option σ) (prop : σ → Prop) : List α → σ → Prop
  | [], s => prop s
  | a :: rest, s => prop s ∧ ∀ s', step s a = some s' → Always step prop rest s'

variable {step f : σ → α → Option σ} {cond : σ → α → Prop} {labels rest xs : List α}
variable {s t : σ} {prop p kept : σ → Prop} {cond' legal : σ → α → Prop}

@[simp] theorem exec_nil (s : σ) : exec step [] s = some s := rfl

theorem exec_cons {a : α} :
    exec step (a :: rest) s = some t ↔ ∃ s', step s a = some s' ∧ exec step rest s' = some t := by
  cases h : step s a with
  | none | some s' => simp [exec, h]

/-- What an outcome that can be computed satisfies. -/
theorem exists_of_any {x : Option σ} [DecidablePred p]
    (holds : (x.any fun s => decide (p s)) = true) : ∃ s, x = some s ∧ p s := by
  obtain ⟨s, found, here⟩ := (Option.any_eq_true ..).mp holds
  exact ⟨s, found, of_decide_eq_true here⟩

instance decidableAlong [∀ s a, Decidable (cond s a)] :
    (labels : List α) → (s : σ) → Decidable (Along step cond labels s)
  | [], _ => isTrue trivial
  | a :: rest, s =>
    match stepped : step s a with
    | none => decidable_of_iff (cond s a) (by simp [Along, stepped])
    | some s' =>
      have := decidableAlong rest s'
      decidable_of_iff (cond s a ∧ Along step cond rest s') (by simp [Along, stepped])

variable (inv : σ → Prop)

theorem invariant_along (keep : ∀ s a s', inv s → cond s a → step s a = some s' → inv s') :
    ∀ {labels : List α} {s t : σ}, inv s → Along step cond labels s →
      exec step labels s = some t → inv t := by
  intro labels
  induction labels with
  | nil =>
    intro s t holds _ run
    obtain rfl : s = t := Option.some.inj run
    exact holds
  | cons a rest ih =>
    intro s t holds along run
    obtain ⟨s', stepped, remaining⟩ := exec_cons.mp run
    exact ih (keep s a s' holds along.1 stepped) (along.2 s' stepped) remaining

theorem invariant (keep : ∀ s a s', inv s → step s a = some s' → inv s')
    (start : inv s) (run : exec step labels s = some t) : inv t := by
  induction labels generalizing s with
  | nil =>
    obtain rfl : s = t := Option.some.inj run
    exact start
  | cons a rest ih =>
    obtain ⟨s', stepped, remaining⟩ := exec_cons.mp run
    exact ih (keep s a s' start stepped) remaining

theorem exec_total (go : ∀ s a, inv s → ∃ s', step s a = some s' ∧ inv s')
    (labels : List α) (start : inv s) : ∃ t, exec step labels s = some t ∧ inv t := by
  induction labels generalizing s with
  | nil => exact ⟨s, rfl, start⟩
  | cons a rest ih =>
    obtain ⟨s', stepped, inv'⟩ := go s a start
    obtain ⟨t, run, inv''⟩ := ih inv'
    exact ⟨t, exec_cons.mpr ⟨s', stepped, run⟩, inv''⟩

theorem along_of_forall (each : ∀ s a, a ∈ labels → cond s a) (s : σ) : Along step cond labels s := by
  induction labels generalizing s with
  | nil => trivial
  | cons a rest ih =>
    refine ⟨each s a (.head _), fun s' _ => ih ?_ s'⟩
    exact fun t b mem => each t b (.tail _ mem)

theorem Along.under {prop : σ → α → Prop} (keep : ∀ s a s', inv s → cond s a → step s a = some s' → inv s')
    (holds : ∀ s a, inv s → cond s a → prop s a) (start : inv s)
    (along : Along step cond labels s) : Along step prop labels s := by
  induction labels generalizing s with
  | nil => trivial
  | cons a rest ih =>
    exact ⟨holds s a start along.1, fun s' stepped =>
      ih (keep s a s' start along.1 stepped) (along.2 s' stepped)⟩

theorem Along.always (keep : ∀ s a s', inv s → cond s a → step s a = some s' → inv s')
    (holds : ∀ s, inv s → prop s) (start : inv s) (along : Along step cond labels s) :
    Always step prop labels s := by
  induction labels generalizing s with
  | nil => exact holds s start
  | cons a rest ih =>
    exact ⟨holds s start, fun s' made => ih (keep s a s' start along.1 made) (along.2 s' made)⟩

theorem always_of_invariant (keep : ∀ s a s', inv s → step s a = some s' → inv s')
    (holds : ∀ s, inv s → prop s) (start : inv s) : Always step prop labels s :=
  (along_of_forall (fun _ _ _ => trivial) s).always inv (fun s a s' here _ => keep s a s' here) holds start

/-- Two conditions agree along legal runs if they agree under an invariant that the steps
    meeting them keep. -/
theorem along_congr_under (keep : ∀ s a s', inv s → legal s a → cond s a → step s a = some s' → inv s')
    (same : ∀ s a, inv s → legal s a → (cond s a ↔ cond' s a)) (start : inv s)
    (legals : Along step legal labels s) : Along step cond labels s ↔ Along step cond' labels s := by
  induction labels generalizing s with
  | nil => exact Iff.rfl
  | cons a rest ih =>
    have here := same s a start legals.1
    constructor
    · rintro ⟨good, later⟩
      exact ⟨here.mp good, fun s' made =>
        (ih (keep s a s' start legals.1 good made) (legals.2 s' made)).mp (later s' made)⟩
    · rintro ⟨good, later⟩
      exact ⟨here.mpr good, fun s' made =>
        (ih (keep s a s' start legals.1 (here.mpr good) made) (legals.2 s' made)).mpr (later s' made)⟩

theorem along_congr_of_invariant (keep : ∀ s a s', inv s → step s a = some s' → inv s')
    (same : ∀ s a, inv s → (cond s a ↔ cond' s a)) (start : inv s) :
    Along step cond labels s ↔ Along step cond' labels s :=
  along_congr_under inv (fun s a s' here _ _ => keep s a s' here) (fun s a here _ => same s a here) start
    (along_of_forall (fun _ _ _ => trivial) s)

theorem along_congr (same : ∀ s a, cond s a ↔ cond' s a) (s : σ) :
    Along step cond labels s ↔ Along step cond' labels s :=
  along_congr_of_invariant (fun _ => True) (fun _ _ _ _ _ => trivial) (fun s a _ => same s a) trivial

theorem Along.and (first : Along step cond labels s) (second : Along step cond' labels s) :
    Along step (fun s a => cond s a ∧ cond' s a) labels s := by
  induction labels generalizing s with
  | nil => trivial
  | cons a rest ih =>
    exact ⟨⟨first.1, second.1⟩, fun s' stepped => ih (first.2 s' stepped) (second.2 s' stepped)⟩

/-- When every step keeps a property exactly if it meets `cond`, a run keeps it
    exactly if all its steps do. -/
theorem kept_iff_along (keep : ∀ s a s', inv s → legal s a → step s a = some s' →
      inv s' ∧ (kept s' ↔ kept s ∧ cond s a)) (start : inv s) (legals : Along step legal labels s)
    (run : exec step labels s = some t) : kept t ↔ kept s ∧ Along step cond labels s := by
  induction labels generalizing s with
  | nil =>
    obtain rfl : s = t := Option.some.inj run
    exact (and_iff_left trivial).symm
  | cons a rest ih =>
    obtain ⟨s', stepped, remaining⟩ := exec_cons.mp run
    obtain ⟨inv', once⟩ := keep s a s' start legals.1 stepped
    rw [ih inv' (legals.2 s' stepped) remaining, once, and_assoc]
    refine and_congr_right fun _ => and_congr_right fun _ => ?_
    constructor
    · intro along t' other
      cases stepped.symm.trans other
      exact along
    · exact fun along => along s' stepped

theorem Always.last (always : Always step prop labels s) (run : exec step labels s = some t) : prop t := by
  induction labels generalizing s with
  | nil => exact Option.some.inj run ▸ always
  | cons a rest ih =>
    obtain ⟨s', stepped, run⟩ := exec_cons.mp run
    exact ih (always.2 s' stepped) run

/-- When a step from a good state leads to a good state exactly if it meets `cond`, or
    stops the system and meets it, a run stays in good states exactly if all its steps
    do. -/
theorem always_iff_along_partial (keep : ∀ s a, inv s → prop s → (step s a = none ∧ cond s a) ∨
      ∃ s', step s a = some s' ∧ inv s' ∧ (prop s' ↔ cond s a)) (start : inv s) (good : prop s) :
    Always step prop labels s ↔ Along step cond labels s := by
  induction labels generalizing s with
  | nil => exact iff_of_true good trivial
  | cons a rest ih =>
    rcases keep s a start good with ⟨stopped, met⟩ | ⟨s', stepped, inv', once⟩
    · have never : ∀ t, step s a ≠ some t := fun t other => Option.some_ne_none t (other.symm.trans stopped)
      exact iff_of_true ⟨good, fun t other => absurd other (never t)⟩
        ⟨met, fun t other => absurd other (never t)⟩
    · have only : ∀ t, step s a = some t → t = s' := fun t other =>
        Option.some.inj (other.symm.trans stepped)
      constructor
      · intro always
        have good' : prop s' := by
          cases rest with
          | nil => exact always.2 s' stepped
          | cons b rest => exact (always.2 s' stepped).1
        refine ⟨once.mp good', fun t other => ?_⟩
        rw [only t other]
        exact (ih inv' good').mp (always.2 s' stepped)
      · intro along
        refine ⟨good, fun t other => ?_⟩
        rw [only t other]
        exact (ih inv' (once.mpr along.1)).mpr (along.2 s' stepped)

theorem always_iff_along
    (keep : ∀ s a, inv s → prop s → ∃ s', step s a = some s' ∧ inv s' ∧ (prop s' ↔ cond s a))
    (start : inv s) (good : prop s) :
    Always step prop labels s ↔ Along step cond labels s :=
  always_iff_along_partial inv (fun s a here fine => .inr (keep s a here fine)) start good

theorem foldlM_total
    (steps : ∀ x ∈ xs, ∀ s, ∃ s', f s x = some s') (s : σ) : ∃ s', xs.foldlM f s = some s' := by
  induction xs generalizing s with
  | nil => exact ⟨s, rfl⟩
  | cons x xs ih =>
    obtain ⟨s₁, step⟩ := steps x (.head _) s
    rw [List.foldlM_cons, step]
    exact ih (fun y mem => steps y (.tail _ mem)) s₁

end Lib.Run
