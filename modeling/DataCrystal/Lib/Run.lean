import Mathlib.Data.List.Basic

/-!
# Runs

A system that takes one step per event runs by folding its step function over
the events. `EachStep` says that every event of a run meets a condition in the
state it happens in, which is how a condition on the inputs of a run is put.

## Main definitions

* `EachStep`: Every step of a run meets a condition.

## Theorems

* `eachStep_invariant`: What every step keeps, the run keeps.
* `eachStep_imp`: A condition is replaced by what it implies.
* `eachStep_append`: A run in two parts.
* `exists_first_step`: What holds behind a run and not before it begins to hold at
  some step.
-/

namespace DataCrystal

variable {σ ε : Type} {step : σ → ε → σ} {P Q : σ → ε → Prop}

/-- Every event of a run meets a condition in the state it happens in. -/
def EachStep (step : σ → ε → σ) (P : σ → ε → Prop) : σ → List ε → Prop
  | _, [] => True
  | s, e :: es => P s e ∧ EachStep step P (step s e) es

theorem eachStep_append (es es' : List ε) : ∀ s, EachStep step P s (es ++ es') ↔
    EachStep step P s es ∧ EachStep step P (es.foldl step s) es' := by
  induction es with
  | nil => exact fun s => (iff_of_eq (true_and _)).symm
  | cons e es ih =>
      intro s
      rw [List.cons_append, EachStep, EachStep, ih, List.foldl_cons, and_assoc]

/-- What every step that meets the condition keeps, the run keeps. -/
theorem eachStep_invariant {I : σ → Prop} (hstep : ∀ s e, I s → P s e → I (step s e))
    (es : List ε) : ∀ s, I s → EachStep step P s es → I (es.foldl step s) := by
  induction es with
  | nil => exact fun s hs _ => hs
  | cons e es ih => exact fun s hs h => ih (step s e) (hstep s e hs h.1) h.2

/-- What a state with an invariant and the condition imply, holds at every step. -/
theorem eachStep_imp {I : σ → Prop} (hstep : ∀ s e, I s → P s e → I (step s e))
    (himp : ∀ s e, I s → P s e → Q s e) (es : List ε) : ∀ s, I s → EachStep step P s es →
    EachStep step Q s es := by
  induction es with
  | nil => exact fun _ _ _ => trivial
  | cons e es ih =>
      exact fun s hs h => ⟨himp s e hs h.1, ih (step s e) (hstep s e hs h.1) h.2⟩

/-- A property that a run brings about begins to hold at one of its steps. -/
theorem exists_first_step {I : σ → Prop} (es : List ε) : ∀ s, ¬I s → I (es.foldl step s) →
    ∃ before e later, es = before ++ e :: later ∧ ¬I (before.foldl step s) ∧
      I (step (before.foldl step s) e) := by
  induction es with
  | nil => exact fun s hs h => absurd h hs
  | cons e es ih =>
      intro s hs h
      by_cases hone : I (step s e)
      · exact ⟨[], e, es, rfl, hs, hone⟩
      · rcases ih (step s e) hone h with ⟨before, e', later, rfl, hnot, hnow⟩
        exact ⟨e :: before, e', later, rfl, hnot, hnow⟩

instance decidableEachStep [∀ s e, Decidable (P s e)] : ∀ s es, Decidable (EachStep step P s es)
  | _, [] => isTrue trivial
  | s, e :: es =>
    have := decidableEachStep (step s e) es
    inferInstanceAs (Decidable (P s e ∧ EachStep step P (step s e) es))

end DataCrystal
