import Mathlib.Data.Option.Basic

/-!
# Runs of a step function

A system is a state type with a step function that refuses the actions that do not apply.
-/

namespace Lib.Run

variable {S A : Type*}

def run (step : S → A → Option S) : S → List A → Option S
  | s, [] => some s
  | s, a :: as => (step s a).bind fun s' => run step s' as

/-- The states of the runs whose steps all meet the guard. -/
inductive Reach (step : S → A → Option S) (guard : S → A → Prop) (s₀ : S) : S → Prop where
  | init : Reach step guard s₀ s₀
  | step {s s' : S} (a : A) : Reach step guard s₀ s → guard s a → step s a = some s' → Reach step guard s₀ s'

variable {step : S → A → Option S} {guard : S → A → Prop} {s₀ s : S}

/-- The rule every invariant of a run is proved with: it holds at the start, and each step keeps it. -/
theorem Reach.invariant (h : Reach step guard s₀ s) (Inv : S → Prop) (hInit : Inv s₀)
    (hStep : ∀ s a s', Inv s → guard s a → step s a = some s' → Inv s') : Inv s := by
  induction h with
  | init => exact hInit
  | step a _ hGuard hNext ih => exact hStep _ a _ ih hGuard hNext

theorem Reach.mono {weaker : S → A → Prop} (h : Reach step guard s₀ s) (hWeaker : ∀ s a, guard s a → weaker s a) :
    Reach step weaker s₀ s := by
  induction h with
  | init => exact .init
  | step a _ hGuard hNext ih => exact ih.step a (hWeaker _ a hGuard) hNext

def guardedRun (step : S → A → Option S) (guard : S → A → Prop) [∀ s a, Decidable (guard s a)] : S → List A → Option S
  | s, [] => some s
  | s, a :: as => if guard s a then (step s a).bind fun s' => guardedRun step guard s' as else none

theorem reach_of_guardedRun [∀ s a, Decidable (guard s a)] {s₁ : S} (as : List A)
    (hStart : Reach step guard s₀ s) (hRun : guardedRun step guard s as = some s₁) :
    Reach step guard s₀ s₁ := by
  induction as generalizing s with
  | nil =>
    cases hRun
    exact hStart
  | cons a as ih =>
    rw [guardedRun] at hRun
    split at hRun
    · rename_i hGuard
      obtain ⟨s', hNext, hRest⟩ := Option.bind_eq_some_iff.mp hRun
      exact ih (hStart.step a hGuard hNext) hRest
    · cases hRun

theorem reach_of_any_guardedRun [∀ s a, Decidable (guard s a)] {as : List A} {P : S → Bool}
    (h : (guardedRun step guard s₀ as).any P = true) : ∃ s, Reach step guard s₀ s ∧ P s = true := by
  cases hRun : guardedRun step guard s₀ as with
  | none =>
    rw [hRun] at h
    cases h
  | some s =>
    rw [hRun] at h
    exact ⟨s, reach_of_guardedRun as .init hRun, h⟩

end Lib.Run
